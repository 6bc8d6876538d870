import Icix.Libc.Sequence

/-! Formats as a C programmer writes them: literal text, %%, and the directives for ints,
characters and strings, each of which stands for its own arguments. -/
namespace Icix.Libc
open Bytes

inductive FlagChar where
  | minus | plus | alt | space | zero
  deriving DecidableEq, Repr

def FlagChar.char : FlagChar → Byte
  | .minus => ch '-'
  | .plus => ch '+'
  | .alt => ch '#'
  | .space => ch ' '
  | .zero => ch '0'

inductive Conversion where
  | d | i | u | o | x | X
  deriving DecidableEq, Repr

def Conversion.char : Conversion → Byte
  | .d => ch 'd'
  | .i => ch 'i'
  | .u => ch 'u'
  | .o => ch 'o'
  | .x => ch 'x'
  | .X => ch 'X'

def Conversion.radix : Conversion → Radix
  | .d | .i => ⟨10, true, []⟩
  | .u => ⟨10, false, []⟩
  | .o => ⟨8, false, [ch '0']⟩
  | .x => ⟨17, false, [ch '0', ch 'x']⟩
  | .X => ⟨16, false, [ch '0', ch 'x']⟩

def Length.text : Length → List Byte
  | .none => []
  | .H => [ch 'h', ch 'h']
  | .h => [ch 'h']
  | .l => [ch 'l']
  | .q => [ch 'l', ch 'l']
  | .j => [ch 'j']
  | .z => [ch 'z']
  | .t => [ch 't']
  | .L => [ch 'L']

/- The stack words of an argument. -/
def Length.words : Length → Nat
  | .q => 2
  | _ => 1

def digitChar (n : Fin 10) : Byte := BitVec.ofNat 8 (48 + n)

/-- A directive %[flags][width][length]conversion; a width does not begin with 0. -/
structure NumberDirective where
  flags : List FlagChar
  width : List (Fin 10)
  leading : width.head? ≠ some 0
  length : Length
  known : length ≠ .L
  conversion : Conversion

namespace NumberDirective

variable (n : NumberDirective)

def text : List Byte :=
  n.flags.map FlagChar.char ++ (n.width.map digitChar ++ (n.length.text ++ [n.conversion.char]))

def flagSet : Flags :=
  ⟨n.flags.contains .minus, n.flags.contains .zero, n.flags.contains .space, n.flags.contains .alt,
    n.flags.contains .plus⟩

/- The width as an int; none is 0. -/
def widthValue : Int := int32 (n.width.foldl (fun v digit => v * 10 + digit.val) 0 : Nat)

end NumberDirective

inductive Piece where
  | literal (c : Byte) (nonzero : c ≠ 0) (plain : c ≠ ch '%')
  | percent
  | number (n : NumberDirective)
  | character
  | string

namespace Piece

def text : Piece → List Byte
  | .literal c _ _ => [c]
  | .percent => [ch '%', ch '%']
  | .number n => ch '%' :: n.text
  | .character => [ch '%', ch 'c']
  | .string => [ch '%', ch 's']

def words : Piece → Nat
  | .literal _ _ _ => 0
  | .percent => 0
  | .number n => n.length.words
  | .character => 1
  | .string => 1

/-- What a piece prints for its own arguments; none where a number does not stay inside
the buffers of __int_str, or a string does not end. -/
def conversion (mem : Nat → Byte) : Piece → List Word → Option (List Byte)
  | .literal c _ _, _ => some [c]
  | .percent, _ => some [ch '%']
  | .number n, args => (emitInteger n.flagSet n.widthValue n.conversion.radix n.length args).toOption.map Prod.fst
  | .character, args => (emitCharacter args).toOption.map Prod.fst
  | .string, args => (emitString mem args).toOption.map Prod.fst

end Piece

def text (pieces : List Piece) : List Byte := pieces.flatMap Piece.text

def words (pieces : List Piece) : Nat := (pieces.map Piece.words).sum

/-- The conversions of all pieces, each from its own arguments. -/
def conversions (mem : Nat → Byte) : List Piece → List Word → Option (List Byte)
  | [], _ => some []
  | p :: pieces, args => do
    let cs ← p.conversion mem (args.take p.words)
    let ds ← conversions mem pieces (args.drop p.words)
    some (cs ++ ds)

section Parsing

theorem flag_char (flags : Flags) (c : FlagChar) : flag flags c.char = some
    { leftJustify := flags.leftJustify || c = .minus
      zeroPad := flags.zeroPad || c = .zero
      spaceNoSign := flags.spaceNoSign || c = .space
      altForm := flags.altForm || c = .alt
      plusSign := flags.plusSign || c = .plus } := by
  cases c <;> simp [flag, FlagChar.char, ch]

theorem parseFlags_chars (flags : Flags) (cs : List FlagChar) {rest : List Byte}
    (stop : ∀ flags, parseFlags flags rest = (flags, rest)) :
    parseFlags flags (cs.map FlagChar.char ++ rest) =
      (⟨flags.leftJustify || cs.contains .minus, flags.zeroPad || cs.contains .zero,
        flags.spaceNoSign || cs.contains .space, flags.altForm || cs.contains .alt,
        flags.plusSign || cs.contains .plus⟩, rest) := by
  induction cs generalizing flags with
  | nil => simp [stop]
  | cons c cs ih =>
    rw [List.map_cons, List.cons_append, parseFlags, flag_char]
    dsimp only
    rw [ih]
    cases c <;> simp

theorem parseDigits_chars (v : Nat) (ds : List (Fin 10)) {rest : List Byte}
    (stop : ∀ v, parseDigits v rest = (v, rest)) :
    parseDigits (int32 v) (ds.map digitChar ++ rest) =
      (int32 (ds.foldl (fun v digit => v * 10 + digit.val) v : Nat), rest) := by
  induction ds generalizing v with
  | nil => exact stop _
  | cons d ds ih =>
    have digit : isdigit (digitChar d) = true := by
      revert d
      decide
    have value : (digitChar d).toInt - 48 = (d.val : Int) := by
      revert d
      decide
    have step : int32 (int32 (int32 v * 10) + d.val) = int32 ((v * 10 + d.val : Nat) : Int) := by
      simp only [int32, Int.bmod_add_bmod, Int.bmod_mul_bmod, Int.natCast_add, Int.natCast_mul]
      rfl
    rw [List.map_cons, List.cons_append, parseDigits, if_pos digit, value, step, ih, List.foldl_cons]

/- The characters that end the flags and the width. -/
def letters : List Byte :=
  [ch 'h', ch 'l', ch 'j', ch 'z', ch 't', ch 'L', ch 'd', ch 'i', ch 'u', ch 'o', ch 'x', ch 'X']

theorem letters_stop : ∀ c ∈ letters,
    c ∉ [ch '-', ch '+', ch '#', ch ' ', ch '0', ch '*', ch '.'] ∧ isdigit c = false := by decide

theorem digits_stop : ∀ d : Fin 10, d ≠ 0 → digitChar d ∉ [ch '-', ch '+', ch '#', ch ' ', ch '0'] := by decide

theorem conversion_letter (c : Conversion) : c.char ∈ letters := by cases c <;> decide

theorem length_letter (length : Length) (c : Conversion) (rest : List Byte) :
    ∃ a cs, length.text ++ c.char :: rest = a :: cs ∧ a ∈ letters := by
  cases length with
  | none => exact ⟨_, _, rfl, conversion_letter c⟩
  | H | h | l | q | j | z | t | L => exact ⟨_, _, rfl, by decide⟩

theorem parseFlags_stop (flags : Flags) {c : Byte} (other : c ∉ [ch '-', ch '+', ch '#', ch ' ', ch '0'])
    (format : List Byte) : parseFlags flags (c :: format) = (flags, c :: format) := by
  simp only [List.mem_cons, List.not_mem_nil, or_false, not_or] at other
  simp only [parseFlags, flag, if_neg other.1, if_neg other.2.1, if_neg other.2.2.1, if_neg other.2.2.2.1,
    if_neg other.2.2.2.2]

/-- A second h is left in the format. -/
theorem parseLength_text (length : Length) (c : Conversion) (rest : List Byte) :
    parseLength (length.text ++ c.char :: rest) =
      (length, if length = .H then ch 'h' :: c.char :: rest else c.char :: rest) := by
  cases length <;> cases c <;> rfl

theorem parse_text (n : NumberDirective) (rest : List Byte) :
    parseDirective (n.text ++ rest) =
      if n.length = .H then .ok (⟨n.flagSet, .value n.widthValue, .value 6, n.length, ch 'h'⟩, n.conversion.char :: rest)
      else .ok (⟨n.flagSet, .value n.widthValue, .value 6, n.length, n.conversion.char⟩, rest) := by
  obtain ⟨a, cs, tail, letter⟩ := length_letter n.length n.conversion rest
  obtain ⟨other, nondigit⟩ := letters_stop a letter
  have stop : ∀ v, parseDigits v (a :: cs) = (v, a :: cs) := by
    intro v
    rw [parseDigits, if_neg (by rw [nondigit]; decide)]
  have head : ∀ c, a ≠ c → (a :: cs).head? ≠ some c := fun c different same => different (Option.some.inj same)
  have width : parseField (n.width.map digitChar ++ a :: cs) = (.value n.widthValue, a :: cs) := by
    have digits := parseDigits_chars 0 n.width stop
    have zero : int32 ((0 : Nat) : Int) = 0 := rfl
    have star : a ≠ ch '*' := fun same => other (by rw [same]; decide)
    rw [zero] at digits
    simp only [parseField, digits, if_neg (head _ star)]
    rfl
  have precision : parsePrecision (a :: cs) = (.value 6, a :: cs) := by
    have point : a ≠ ch '.' := fun same => other (by rw [same]; decide)
    rw [parsePrecision, if_neg (head _ point)]
  have flags : parseFlags noFlags (n.flags.map FlagChar.char ++ (n.width.map digitChar ++ a :: cs)) =
      (n.flagSet, n.width.map digitChar ++ a :: cs) := by
    apply parseFlags_chars
    intro flags
    cases digits : n.width with
    | nil => exact parseFlags_stop flags (fun flag => other (List.mem_append_left [ch '*', ch '.'] flag)) cs
    | cons d ds =>
      have nonzero : d ≠ 0 := by
        rintro rfl
        exact n.leading (congrArg List.head? digits)
      exact parseFlags_stop flags (digits_stop d nonzero) _
  have length := parseLength_text n.length n.conversion rest
  rw [tail] at length
  have whole : n.text ++ rest = n.flags.map FlagChar.char ++ (n.width.map digitChar ++ a :: cs) := by
    simp only [NumberDirective.text, ← tail, List.append_assoc, List.singleton_append]
  rw [whole]
  by_cases doubled : n.length = .H
  · rw [if_pos doubled] at length ⊢
    simp only [parseDirective, flags, width, precision, length]
  · rw [if_neg doubled] at length ⊢
    simp only [parseDirective, flags, width, precision, length]

end Parsing

section Emitting

/- The arguments that a directive takes. -/
theorem integerArg_words {signed : Bool} {length : Length} (known : length ≠ .L) {args rest : List Word} {i : Option Int}
    (taken : integerArg signed length args = .ok (i, rest)) : args.length = rest.length + length.words := by
  cases length with
  | L => exact absurd rfl known
  | q =>
    cases args with
    | nil => cases taken
    | cons low args =>
      cases args with
      | nil => cases taken
      | cons high args =>
        cases taken
        rfl
  | none | H | h | l | j | z | t =>
    cases args with
    | nil => cases taken
    | cons w args =>
      cases taken
      rfl

theorem emitInteger_words {flags : Flags} {lengthSpec : Int} {r : Radix} {length : Length} (known : length ≠ .L)
    {args rest : List Word} {cs : List Byte} (emitted : emitInteger flags lengthSpec r length args = .ok (cs, rest)) :
    args.length = rest.length + length.words := by
  obtain ⟨⟨i, _⟩, arg, emitted⟩ := Runs.bind_ok.mp emitted
  have taken := integerArg_words known arg
  cases i with
  | none =>
    cases emitted
    exact taken
  | some i =>
    obtain ⟨text, -, emitted⟩ := Runs.bind_ok.mp emitted
    cases emitted
    exact taken

theorem emitCharacter_words {args rest : List Word} {cs : List Byte} (emitted : emitCharacter args = .ok (cs, rest)) :
    args.length = rest.length + 1 := by
  cases args with
  | nil => cases emitted
  | cons w args =>
    cases emitted
    rfl

theorem emitString_words {mem : Nat → Byte} {args rest : List Word} {cs : List Byte}
    (emitted : emitString mem args = .ok (cs, rest)) : args.length = rest.length + 1 := by
  cases args with
  | nil => cases emitted
  | cons p args =>
    simp only [emitString, vaArg, Runs.ok_bind] at emitted
    split at emitted
    · cases emitted
      rfl
    · cases emitted

theorem none_left {args left : List Word} {k : Nat} (taken : args.length = left.length + k) (own : args.length = k) :
    left = [] := by
  apply List.eq_nil_of_length_eq_zero
  omega

theorem emitted_of_text {emitted : Except Stray (List Byte × List Word)} {cs : List Byte}
    (text : emitted.toOption.map Prod.fst = some cs) : ∃ rest, emitted = .ok (cs, rest) := by
  cases emitted with
  | error e => cases text
  | ok r =>
    cases text
    exact ⟨r.2, rfl⟩

/- The specifiers of the pieces, and what emit does for them. -/
theorem emit_conversion (floats : Floats) (flags : Flags) (width precision : Field) (length : Length) (c : Conversion)
    (w q : Int) (mem : Nat → Byte) (args : List Word) :
    emit floats ⟨flags, width, precision, length, c.char⟩ w q mem args = emitInteger flags w c.radix length args := by
  cases c <;> rfl

end Emitting

section Printing

variable (floats : Floats) {mem : Nat → Byte}

/-- The text of a directive, and the arguments it leaves, determine what follows. -/
theorem print_unit {format rest : List Byte} {d : Directive} (parsed : parseDirective format = .ok (d, rest))
    (text : d.specifier ≠ ch 'n') {w q : Int} (width : d.lengthSpec = .value w) (precision : d.precSpec = .value q)
    {args more : List Word} {cs : List Byte} (emitted : emit floats d w q mem args = .ok (cs, more)) (out : List Byte)
    (n : Int) :
    print floats (ch '%' :: format) ⟨out, int32 n, args, mem⟩ =
      print floats rest ⟨out ++ cs, int32 (n + cs.length), more, mem⟩ := by
  have converted : convert floats d ⟨out, int32 n, args, mem⟩ = .ok ⟨out ++ cs, int32 (n + cs.length), more, mem⟩ := by
    rw [convert_text text (by rw [width]; rfl) (by rw [precision]; rfl), emitted]
    exact congrArg Except.ok (displayString_eq rfl cs)
  rw [print_parsed floats _ _ parsed, converted]
  rfl

/- What vprintf prints for a piece without hh, and how many characters of it are missing. -/
def Piece.printed (mem : Nat → Byte) : Piece → List Word → Option (List Byte)
  | .percent, _ => some []
  | p, args => p.conversion mem args

def Piece.missing : Piece → Nat
  | .percent => 1
  | _ => 0

theorem Piece.printed_of_conversion {p : Piece} {args : List Word} {cs : List Byte}
    (converted : p.conversion mem args = some cs) :
    ∃ ds, p.printed mem args = some ds ∧ ds.length + p.missing = cs.length ∧ (p.missing = 0 → ds = cs) := by
  cases p with
  | percent =>
    cases converted
    exact ⟨[], rfl, rfl, fun none => absurd none Nat.one_ne_zero⟩
  | literal | number | character | string => exact ⟨cs, converted, rfl, fun _ => rfl⟩

/-- A piece is printed as a unit, with its own arguments; %% prints nothing. -/
theorem print_piece {p : Piece} (single : ∀ n, p = .number n → n.length ≠ .H) {args : List Word}
    (own : args.length = p.words) {cs : List Byte} (printed : p.printed mem args = some cs) (rest : List Byte)
    (out : List Byte) (n : Int) (more : List Word) :
    print floats (p.text ++ rest) ⟨out, int32 n, args ++ more, mem⟩ =
      print floats rest ⟨out ++ cs, int32 (n + cs.length), more, mem⟩ := by
  cases p with
  | literal c nonzero plain =>
    cases printed
    rw [List.eq_nil_of_length_eq_zero own]
    exact (print_char floats rest _ nonzero plain).trans
      (congrArg (print floats rest) (displayString_eq (s := ⟨out, int32 n, more, mem⟩) rfl [c]))
  | percent =>
    cases printed
    rw [List.eq_nil_of_length_eq_zero own]
    have parsed := parse_bare (c := ch '%') (by decide) rest
    exact print_unit floats parsed (by decide) rfl rfl rfl out n
  | number d =>
    obtain ⟨left, emitted⟩ := emitted_of_text printed
    have none := none_left (emitInteger_words d.known emitted) own
    have parsed := parse_text d rest
    rw [if_neg (single d rfl)] at parsed
    have text : d.conversion.char ≠ ch 'n' := by cases d.conversion <;> decide
    have emitted' := emitInteger_append more emitted
    rw [none, List.nil_append, ← emit_conversion floats d.flagSet (.value d.widthValue) (.value 6) d.length d.conversion
      d.widthValue 6 mem] at emitted'
    exact print_unit floats parsed text rfl rfl emitted' out n
  | character =>
    obtain ⟨left, emitted⟩ := emitted_of_text printed
    have parsed := parse_bare (c := ch 'c') (by decide) rest
    have none := none_left (emitCharacter_words emitted) own
    have emitted' := emitCharacter_append more emitted
    rw [none, List.nil_append] at emitted'
    exact print_unit floats parsed (by decide) rfl rfl emitted' out n
  | string =>
    obtain ⟨left, emitted⟩ := emitted_of_text printed
    have parsed := parse_bare (c := ch 's') (by decide) rest
    have none := none_left (emitString_words emitted) own
    have emitted' := emitString_append more emitted
    rw [none, List.nil_append] at emitted'
    exact print_unit floats parsed (by decide) rfl rfl emitted' out n

def missing (pieces : List Piece) : Nat := (pieces.map Piece.missing).sum

/-- A format without hh prints all conversions except the percent signs. -/
theorem print_pieces {pieces : List Piece} (single : ∀ n, .number n ∈ pieces → n.length ≠ .H) {args : List Word}
    (own : args.length = words pieces) {cs : List Byte} (converted : conversions mem pieces args = some cs) :
    ∃ ds, ds.length + missing pieces = cs.length ∧ (missing pieces = 0 → ds = cs) ∧ ∀ out n more,
      print floats (text pieces ++ [0]) ⟨out, int32 n, args ++ more, mem⟩ =
        .ok ⟨out ++ ds, int32 (n + ds.length), more, mem⟩ := by
  induction pieces generalizing args cs with
  | nil =>
    cases converted
    refine ⟨[], rfl, fun _ => rfl, ?_⟩
    intro out n more
    rw [List.eq_nil_of_length_eq_zero own, List.append_nil, List.length_nil, Int.natCast_zero, Int.add_zero]
    exact print_nul floats [] _
  | cons p pieces ih =>
    simp only [conversions, Option.bind_eq_bind, Option.bind_eq_some_iff, Option.some.injEq] at converted
    obtain ⟨t, first, u, others, rfl⟩ := converted
    have total : args.length = p.words + words pieces := own
    have front : (args.take p.words).length = p.words := by
      rw [List.length_take]
      omega
    have back : (args.drop p.words).length = words pieces := by
      rw [List.length_drop]
      omega
    obtain ⟨t', printed, short, whole⟩ := Piece.printed_of_conversion first
    obtain ⟨u', short', whole', again⟩ := ih (fun n mem => single n (List.mem_cons_of_mem p mem)) back others
    have sum : missing (p :: pieces) = p.missing + missing pieces := rfl
    refine ⟨t' ++ u', ?_, ?_, ?_⟩
    · rw [sum, List.length_append, List.length_append]
      omega
    · intro none
      rw [whole (by omega), whole' (by omega)]
    · intro out n more
      have split : args ++ more = args.take p.words ++ (args.drop p.words ++ more) := by
        rw [← List.append_assoc, List.take_append_drop]
      have piece := print_piece floats (fun n same => single n (same ▸ List.mem_cons_self)) front printed
        (text pieces ++ [0]) out n (args.drop p.words ++ more)
      have format : text (p :: pieces) ++ [0] = p.text ++ (text pieces ++ [0]) := List.append_assoc _ _ _
      rw [split, format, piece, again, List.append_assoc, List.length_append, Int.natCast_add, Int.add_assoc]

/- The words that vprintf takes for a piece: a hh takes none. -/
def Piece.taken : Piece → Nat
  | .number n => if n.length = .H then 0 else n.length.words
  | p => p.words

theorem print_unit_taken {format rest : List Byte} {d : Directive} (parsed : parseDirective format = .ok (d, rest))
    (text : d.specifier ≠ ch 'n') {w q : Int} (width : d.lengthSpec = .value w) (precision : d.precSpec = .value q)
    {s t : Printing} (ran : print floats (ch '%' :: format) s = .ok t) :
    ∃ r cs, print floats rest r = .ok t ∧ emit floats d w q s.mem s.args = .ok (cs, r.args) := by
  rw [print_parsed floats _ _ parsed] at ran
  obtain ⟨r, converted, ran⟩ := Runs.bind_ok.mp ran
  rw [convert_text text (by rw [width]; rfl) (by rw [precision]; rfl)] at converted
  obtain ⟨⟨cs, left⟩, emitted, shown⟩ := Runs.map_ok.mp converted
  refine ⟨r, cs, ran, ?_⟩
  rw [← shown, displayString_args]
  exact emitted

theorem print_piece_taken {p : Piece} {rest : List Byte} {s t : Printing}
    (ran : print floats (p.text ++ rest) s = .ok t) :
    ∃ r, print floats rest r = .ok t ∧ s.args.length = r.args.length + p.taken := by
  cases p with
  | literal c nonzero plain => exact ⟨_, (print_char floats rest s nonzero plain).symm.trans ran, rfl⟩
  | percent =>
    have parsed := parse_bare (c := ch '%') (by decide) rest
    obtain ⟨r, cs, ran, emitted⟩ := print_unit_taken floats parsed (by decide) rfl rfl ran
    have kept : s.args = r.args := congrArg Prod.snd (Except.ok.inj emitted)
    exact ⟨r, ran, congrArg List.length kept⟩
  | number d =>
    have parsed := parse_text d rest
    by_cases doubled : d.length = .H
    · -- the second h is taken for the specifier, and the specifier for text
      rw [if_pos doubled] at parsed
      have plain : d.conversion.char ≠ 0 ∧ d.conversion.char ≠ ch '%' := by cases d.conversion <;> decide
      obtain ⟨r, cs, ran, emitted⟩ := print_unit_taken floats parsed (show ch 'h' ≠ ch 'n' by decide) rfl rfl ran
      rw [print_char floats rest r plain.1 plain.2] at ran
      have kept : s.args = r.args := congrArg Prod.snd (Except.ok.inj emitted)
      refine ⟨_, ran, ?_⟩
      rw [Piece.taken, if_pos doubled, kept]
      rfl
    · rw [if_neg doubled] at parsed
      have text : d.conversion.char ≠ ch 'n' := by cases d.conversion <;> decide
      obtain ⟨r, cs, ran, emitted⟩ := print_unit_taken floats parsed text rfl rfl ran
      rw [emit_conversion] at emitted
      refine ⟨r, ran, ?_⟩
      rw [Piece.taken, if_neg doubled]
      exact emitInteger_words d.known emitted
  | character =>
    have parsed := parse_bare (c := ch 'c') (by decide) rest
    obtain ⟨r, cs, ran, emitted⟩ := print_unit_taken floats parsed (by decide) rfl rfl ran
    exact ⟨r, ran, emitCharacter_words emitted⟩
  | string =>
    have parsed := parse_bare (c := ch 's') (by decide) rest
    obtain ⟨r, cs, ran, emitted⟩ := print_unit_taken floats parsed (by decide) rfl rfl ran
    exact ⟨r, ran, emitString_words emitted⟩

theorem print_pieces_taken {pieces : List Piece} {s t : Printing}
    (ran : print floats (text pieces ++ [0]) s = .ok t) :
    s.args.length = t.args.length + (pieces.map Piece.taken).sum := by
  induction pieces generalizing s with
  | nil =>
    have same := Except.ok.inj ((print_nul floats [] s).symm.trans ran)
    rw [same]
    rfl
  | cons p pieces ih =>
    have format : text (p :: pieces) ++ [0] = p.text ++ (text pieces ++ [0]) := List.append_assoc _ _ _
    rw [format] at ran
    obtain ⟨r, ran, taken⟩ := print_piece_taken floats ran
    rw [taken, ih ran, List.map_cons, List.sum_cons]
    omega

end Printing

/- A format with a hh takes fewer words than its pieces have. -/
theorem taken_le (p : Piece) : p.taken ≤ p.words := by
  cases p with
  | number n =>
    rw [Piece.taken]
    split
    · exact Nat.zero_le _
    · exact Nat.le_refl _
  | literal | percent | character | string => exact Nat.le_refl _

theorem taken_sum_le (pieces : List Piece) : (pieces.map Piece.taken).sum ≤ words pieces := by
  induction pieces with
  | nil => exact Nat.le_refl 0
  | cons p pieces ih => exact Nat.add_le_add (taken_le p) ih

theorem single_of_taken {pieces : List Piece} (all : (pieces.map Piece.taken).sum = words pieces) :
    ∀ n, .number n ∈ pieces → n.length ≠ .H := by
  induction pieces with
  | nil =>
    intro n mem
    cases mem
  | cons p pieces ih =>
    have first := taken_le p
    have rest := taken_sum_le pieces
    have sum : p.taken + (pieces.map Piece.taken).sum = p.words + words pieces := all
    intro n mem doubled
    cases List.mem_cons.mp mem with
    | inl same =>
      have none : p.taken = 0 := by rw [← same, Piece.taken, if_pos doubled]
      have one : p.words = 1 := by
        rw [← same, Piece.words, doubled]
        rfl
      omega
    | inr later => exact ih (by omega) n later doubled

theorem missing_eq_zero {pieces : List Piece} : missing pieces = 0 ↔ .percent ∉ pieces := by
  induction pieces with
  | nil => exact ⟨fun _ mem => (by cases mem), fun _ => rfl⟩
  | cons p pieces ih =>
    have sum : missing (p :: pieces) = p.missing + missing pieces := rfl
    have here : p.missing = 0 ↔ .percent ≠ p := by
      cases p with
      | percent => exact ⟨fun none => absurd none Nat.one_ne_zero, fun other => absurd rfl other⟩
      | literal | number | character | string => exact ⟨fun _ same => (by cases same), fun _ => rfl⟩
    rw [sum, Nat.add_eq_zero_iff, here, ih, List.mem_cons, not_or]

/-- vprintf treats every piece as a unit: it prints the conversions and no other character,
and takes from the arguments exactly those of the directives. -/
def PrintsUnits (floats : Floats) (mem : Nat → Byte) (pieces : List Piece) (args more : List Word) : Prop :=
  ∃ s, vprintf floats (text pieces) (args ++ more) mem = .ok s ∧
    conversions mem pieces args = some s.out ∧ s.args = more

/-- It does if and only if there is no %% and no hh in the format, every conversion has a
text, and an int can count the characters of the format. -/
theorem vprintf_units (floats : Floats) (mem : Nat → Byte) (pieces : List Piece) (args more : List Word)
    (own : args.length = words pieces) :
    PrintsUnits floats mem pieces args more ↔
      .percent ∉ pieces ∧ (∀ n, .number n ∈ pieces → n.length ≠ .H) ∧ conversions mem pieces args ≠ none ∧
        (text pieces).length < 2147483648 := by
  constructor
  · rintro ⟨s, ran, converted, left⟩
    rw [vprintf] at ran
    split at ran
    · rename_i index
      have taken := print_pieces_taken floats ran
      rw [List.length_append, left, own] at taken
      have all : (pieces.map Piece.taken).sum = words pieces := by omega
      have single := single_of_taken all
      obtain ⟨ds, short, -, again⟩ := print_pieces floats single own converted
      have same := Except.ok.inj (ran.symm.trans (again [] 0 more))
      have out : s.out = ds := congrArg Printing.out same
      refine ⟨missing_eq_zero.mp ?_, single, ?_, index⟩
      · rw [out] at short
        omega
      · rw [converted]
        exact Option.some_ne_none _
    · cases ran
  · rintro ⟨noPercent, single, text, index⟩
    obtain ⟨cs, converted⟩ := Option.ne_none_iff_exists'.mp text
    obtain ⟨ds, -, whole, ran⟩ := print_pieces floats single own converted
    have same := whole (missing_eq_zero.mpr noPercent)
    have start := ran [] 0 more
    rw [List.nil_append, same] at start
    refine ⟨⟨cs, int32 (0 + cs.length), more, mem⟩, ?_, converted, rfl⟩
    · rw [vprintf, if_pos index]
      exact start

/- %-5lX for a long. -/
def longHex : NumberDirective := ⟨[.minus], [5], by decide, .l, by decide, .X⟩

theorem vprintf_units_long :
    let floats : Floats := fun _ _ _ _ _ => .error .argument
    PrintsUnits floats zeros [.number longHex, .character] [3, 65] [7] := by
  intro floats
  apply (vprintf_units floats zeros [.number longHex, .character] [3, 65] [7] rfl).mpr
  refine ⟨by simp, ?_, ?_, by decide⟩
  · intro n mem
    have same : n = longHex := by simpa using mem
    rw [same]
    decide
  · exact Option.some_ne_none ([ch '3', ch ' ', ch ' ', ch ' ', ch ' '] ++ [ch 'A'])

/- %hhd for a signed char. -/
def charDecimal : NumberDirective := ⟨[], [], by decide, .H, by decide, .d⟩

/-- A percent sign is not printed; hh takes no argument, and d is printed for it. -/
theorem vprintf_not_units :
    let floats : Floats := fun _ _ _ _ _ => .error .argument
    ¬ PrintsUnits floats zeros [.percent] [] [] ∧ ¬ PrintsUnits floats zeros [.number charDecimal] [12] [] := by
  intro floats
  constructor
  · rintro ⟨s, ran, converted, -⟩
    have empty : vprintf floats (text [.percent]) [] zeros = .ok ⟨[], 0, [], zeros⟩ := rfl
    have out : s.out = [] := congrArg Printing.out (Except.ok.inj (ran.symm.trans empty))
    have sign : conversions zeros [.percent] [] = some [ch '%'] := rfl
    rw [sign, out] at converted
    cases converted
  · rintro ⟨s, ran, -, left⟩
    have echoed : vprintf floats (text [.number charDecimal]) [12] zeros = .ok ⟨[ch 'd'], 1, [12], zeros⟩ := rfl
    have args : s.args = [12] := congrArg Printing.args (Except.ok.inj (ran.symm.trans echoed))
    rw [args] at left
    cases left

end Icix.Libc
