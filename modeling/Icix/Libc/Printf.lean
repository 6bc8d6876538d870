import Icix.Library.Runs
import Icix.Libc.IntStr

/-! vprintf of libc/stdio/printf.c. A format is the list of its bytes with the NUL; reading
on where the list has ended is reading past the NUL. Variadic arguments are the words they
occupy on the stack. What is printed for a double is a parameter here: nothing else in vprintf
depends on it. -/
namespace Icix.Libc
open Bytes

structure Flags where
  leftJustify : Bool
  zeroPad : Bool
  spaceNoSign : Bool
  altForm : Bool
  plusSign : Bool
  deriving DecidableEq, Repr

def noFlags : Flags := ⟨false, false, false, false, false⟩

def flag (flags : Flags) (c : Byte) : Option Flags :=
  if c = ch '-' then some { flags with leftJustify := true }
  else if c = ch '+' then some { flags with plusSign := true }
  else if c = ch '#' then some { flags with altForm := true }
  else if c = ch ' ' then some { flags with spaceNoSign := true }
  else if c = ch '0' then some { flags with zeroPad := true }
  else none

def parseFlags (flags : Flags) : List Byte → Flags × List Byte
  | [] => (flags, [])
  | c :: format =>
    match flag flags c with
    | some flags => parseFlags flags format
    | none => (flags, c :: format)

def isdigit (c : Byte) : Bool := decide (48 ≤ c.toInt ∧ c.toInt ≤ 57)

def parseDigits (n : Int) : List Byte → Int × List Byte
  | [] => (n, [])
  | c :: format =>
    if isdigit c then parseDigits (int32 (int32 (n * 10) + (c.toInt - 48))) format
    else (n, c :: format)

/-- A width or a precision: read from the format, or passed as an argument. -/
inductive Field where
  | value (n : Int)
  | star
  deriving DecidableEq, Repr

def parseField (format : List Byte) : Field × List Byte :=
  let (n, format) := parseDigits 0 format
  if format.head? = some (ch '*') then (.star, format.tail) else (.value n, format)

def parsePrecision (format : List Byte) : Field × List Byte :=
  if format.head? = some (ch '.') then parseField format.tail else (.value 6, format)

/-- The length modifiers; H stands for hh and q for ll. -/
inductive Length where
  | none | H | h | l | q | j | z | t | L
  deriving DecidableEq, Repr

def modifier (c : Byte) : Option Length :=
  if c = ch 'h' then some .h
  else if c = ch 'l' then some .l
  else if c = ch 'j' then some .j
  else if c = ch 'z' then some .z
  else if c = ch 't' then some .t
  else if c = ch 'L' then some .L
  else none

def parseLength : List Byte → Length × List Byte
  | [] => (.none, [])
  | c :: format =>
    match modifier c with
    | none => (.none, c :: format)
    | some length =>
      -- a second 'h' is not stepped over
      if format.head? = some (ch 'h') then (.H, format)
      else if format.head? = some (ch 'l') then (.q, format.tail)
      else (length, format)

structure Directive where
  flags : Flags
  lengthSpec : Field
  precSpec : Field
  length : Length
  specifier : Byte
  deriving DecidableEq, Repr

/-- What follows a '%', and the format after it. -/
def parseDirective (format : List Byte) : Except Stray (Directive × List Byte) :=
  let (flags, format) := parseFlags noFlags format
  let (lengthSpec, format) := parseField format
  let (precSpec, format) := parsePrecision format
  let (length, format) := parseLength format
  match format with
  | [] => .error .format
  | specifier :: format => .ok (⟨flags, lengthSpec, precSpec, length, specifier⟩, format)

def vaArg : List Word → Except Stray (Word × List Word)
  | [] => .error .argument
  | w :: args => .ok (w, args)

def fieldArg : Field → List Word → Except Stray (Int × List Word)
  | .value n, args => .ok (n, args)
  | .star, args => do
    let (w, args) ← vaArg args
    .ok (w.toInt, args)

/-- The base, the sign and the alternative form of the integer conversions. -/
structure Radix where
  base : Nat
  signed : Bool
  alt : List Byte
  deriving DecidableEq, Repr

def radix (specifier : Byte) : Option Radix :=
  if specifier = ch 'o' then some ⟨8, false, [ch '0']⟩
  else if specifier = ch 'p' then some ⟨16, false, []⟩
  else if specifier = ch 'X' then some ⟨16, false, [ch '0', ch 'x']⟩
  else if specifier = ch 'x' then some ⟨17, false, [ch '0', ch 'x']⟩
  else if specifier = ch 'u' then some ⟨10, false, []⟩
  else if specifier = ch 'd' ∨ specifier = ch 'i' then some ⟨10, true, []⟩
  else none

/- The int32_t that __int_str gets; a long long is cut to its low word. -/
def integerArg (signed : Bool) : Length → List Word → Except Stray (Option Int × List Word)
  | .L, args => .ok (none, args)
  | .H, args => do
    let (w, args) ← vaArg args
    .ok (some (if signed then (w.setWidth 8).toInt else (w.setWidth 8).toNat), args)
  | .h, args => do
    let (w, args) ← vaArg args
    .ok (some (if signed then (w.setWidth 16).toInt else (w.setWidth 16).toNat), args)
  | .q, args => do
    let (low, args) ← vaArg args
    let (_, args) ← vaArg args
    .ok (some low.toInt, args)
  | _, args => do
    let (w, args) ← vaArg args
    .ok (some w.toInt, args)

/- The text of a number; intStrBuffer is zeroed before each directive. -/
def number (flags : Flags) (lengthSpec : Int) (base : Nat) (i : Int) : Except Stray (List Byte) := do
  let b ← intStr i zeros base flags.plusSign flags.spaceNoSign lengthSpec flags.leftJustify flags.zeroPad
  stringIn 256 b

def emitInteger (flags : Flags) (lengthSpec : Int) (r : Radix) (length : Length) (args : List Word) :
    Except Stray (List Byte × List Word) := do
  let alt := if flags.altForm then r.alt else []
  match ← integerArg r.signed length args with
  | (none, args) => .ok (alt, args)
  | (some i, args) => do
    let cs ← number flags lengthSpec r.base i
    .ok (alt ++ cs, args)

/-- What %e, %E, %f, %F, %g and %G print for a double, given as two words; their code is doubleText. -/
abbrev Floats := Directive → Int → Int → Word → Word → Except Stray (List Byte)

def floating (specifier : Byte) : Bool :=
  ['e', 'E', 'f', 'F', 'g', 'G'].any (fun c => specifier = ch c)

def emitFloating (floats : Floats) (d : Directive) (lengthSpec precSpec : Int) (args : List Word) :
    Except Stray (List Byte × List Word) := do
  let (low, args) ← vaArg args
  let (high, args) ← vaArg args
  let cs ← floats d lengthSpec precSpec low high
  .ok (cs, args)

def emitCharacter (args : List Word) : Except Stray (List Byte × List Word) := do
  let (w, args) ← vaArg args
  .ok ([w.setWidth 8], args)

/- displayString counts its index in an int. -/
def emitString (mem : Nat → Byte) (args : List Word) : Except Stray (List Byte × List Word) := do
  let (p, args) ← vaArg args
  match readString 2147483648 (view mem p.toNat) with
  | some cs => .ok (cs, args)
  | none => .error .string

/- The text of a directive, and the arguments after those it consumes. -/
def emit (floats : Floats) (d : Directive) (lengthSpec precSpec : Int) (mem : Nat → Byte) (args : List Word) :
    Except Stray (List Byte × List Word) :=
  match radix d.specifier with
  | some r => emitInteger d.flags lengthSpec r (if d.specifier = ch 'p' then .z else d.length) args
  | none =>
    if d.specifier = ch 'c' then emitCharacter args
    else if d.specifier = ch 's' then emitString mem args
    else if floating d.specifier then emitFloating floats d lengthSpec precSpec args
    else .ok ([], args)

structure Printing where
  out : List Byte
  chars : Int
  args : List Word
  mem : Nat → Byte

def displayCharacter (s : Printing) (c : Byte) : Printing :=
  { s with out := s.out ++ [c], chars := int32 (s.chars + 1) }

def displayString (s : Printing) (cs : List Byte) : Printing := cs.foldl displayCharacter s

/- *(T*) p = chars for the type T of a length modifier. -/
def storeChars (length : Length) (s : Printing) : Except Stray Printing := do
  let bytes := fun k => BitVec.ofInt 8 (s.chars / 256 ^ k)
  let size := match length with
    | .H => 1
    | .h => 2
    | .q => 8
    | _ => 4
  if length = .L then .ok s
  else do
    let (p, args) ← vaArg s.args
    .ok { s with args := args, mem := blit s.mem p.toNat size bytes }

def convert (floats : Floats) (d : Directive) (s : Printing) : Except Stray Printing := do
  let (lengthSpec, args) ← fieldArg d.lengthSpec s.args
  let (precSpec, args) ← fieldArg d.precSpec args
  if d.specifier = ch 'n' then storeChars d.length { s with args := args }
  else do
    let (cs, args) ← emit floats d lengthSpec precSpec s.mem args
    .ok (displayString { s with args := args } cs)

/- The loop of vprintf; converts is what it does with a directive. -/
def printLoop (converts : Directive → Printing → Except Stray Printing) : Nat → List Byte → Printing → Except Stray Printing
  | 0, _, _ => .error .endless
  | _ + 1, [], _ => .error .format
  | fuel + 1, c :: format, s =>
    if c = 0 then .ok s
    else if c = ch '%' then do
      let (d, format) ← parseDirective format
      let s ← converts d s
      printLoop converts fuel format s
    else printLoop converts fuel format (displayCharacter s c)

/- Every turn of the loop reads at least one character. -/
def print (floats : Floats) (format : List Byte) (s : Printing) : Except Stray Printing :=
  printLoop (convert floats) (format.length + 1) format s

/-- A run on the format made of the given characters. The index i is an int. -/
def vprintf (floats : Floats) (format : List Byte) (args : List Word) (mem : Nat → Byte) : Except Stray Printing :=
  if format.length < 2147483648 then print floats (format ++ [0]) ⟨[], 0, args, mem⟩
  else .error .format

/-- The count is that of the characters, modulo 2^32. -/
theorem displayString_eq {s : Printing} {n : Int} (count : s.chars = int32 n) (cs : List Byte) :
    displayString s cs = { s with out := s.out ++ cs, chars := int32 (n + cs.length) } := by
  induction cs generalizing s n with
  | nil =>
    rw [List.append_nil, List.length_nil, Int.natCast_zero, Int.add_zero, ← count]
    rfl
  | cons c cs ih =>
    have one : (displayCharacter s c).chars = int32 (n + 1) := by
      simp only [displayCharacter, count, int32, Int.bmod_add_bmod]
    have sum : n + 1 + cs.length = n + (c :: cs).length := by
      rw [List.length_cons]
      omega
    rw [displayString, List.foldl_cons, ← displayString, ih one, sum, displayCharacter, List.append_assoc,
      List.singleton_append]

/-- Apart from the count, a string only adds to the output. -/
theorem displayString_fields (s : Printing) (cs : List Byte) :
    displayString s cs = ⟨s.out ++ cs, (displayString s cs).chars, s.args, s.mem⟩ := by
  induction cs generalizing s with
  | nil => simp [displayString]
  | cons c cs ih =>
    have rest := ih (displayCharacter s c)
    simp only [displayCharacter, List.append_assoc, List.singleton_append] at rest
    exact rest

theorem displayString_out (s : Printing) (cs : List Byte) : (displayString s cs).out = s.out ++ cs := by
  rw [displayString_fields]

theorem displayString_args (s : Printing) (cs : List Byte) : (displayString s cs).args = s.args := by
  rw [displayString_fields]

/- Parsing only steps forward. -/
theorem parseFlags_suffix (flags : Flags) (format : List Byte) : (parseFlags flags format).2 <:+ format := by
  induction format generalizing flags with
  | nil => exact List.suffix_refl []
  | cons c format ih =>
    rw [parseFlags]
    split
    · exact (ih _).trans (List.suffix_cons c format)
    · exact List.suffix_refl (c :: format)

theorem parseDigits_suffix (n : Int) (format : List Byte) : (parseDigits n format).2 <:+ format := by
  induction format generalizing n with
  | nil => exact List.suffix_refl []
  | cons c format ih =>
    rw [parseDigits]
    split
    · exact (ih _).trans (List.suffix_cons c format)
    · exact List.suffix_refl (c :: format)

theorem parseField_suffix (format : List Byte) : (parseField format).2 <:+ format := by
  have digits := parseDigits_suffix 0 format
  simp only [parseField]
  split
  · exact (List.tail_suffix _).trans digits
  · exact digits

theorem parsePrecision_suffix (format : List Byte) : (parsePrecision format).2 <:+ format := by
  rw [parsePrecision]
  split
  · exact (parseField_suffix format.tail).trans (List.tail_suffix format)
  · exact List.suffix_refl format

theorem parseLength_suffix (format : List Byte) : (parseLength format).2 <:+ format := by
  cases format with
  | nil => exact List.suffix_refl []
  | cons c format =>
    rw [parseLength]
    split
    · exact List.suffix_refl (c :: format)
    · split
      · exact List.suffix_cons c format
      · split
        · exact (List.tail_suffix format).trans (List.suffix_cons c format)
        · exact List.suffix_cons c format

/-- A directive, and how the parts of its text were read. -/
theorem parseDirective_ok {format rest : List Byte} {d : Directive}
    (parsed : parseDirective format = .ok (d, rest)) :
    ∃ f₁ f₂ f₃, parseFlags noFlags format = (d.flags, f₁) ∧ parseField f₁ = (d.lengthSpec, f₂) ∧
      parsePrecision f₂ = (d.precSpec, f₃) ∧ parseLength f₃ = (d.length, d.specifier :: rest) := by
  simp only [parseDirective] at parsed
  split at parsed
  · cases parsed
  · rename_i last
    cases parsed
    exact ⟨_, _, _, rfl, rfl, rfl, Prod.ext rfl last⟩

theorem parseDirective_suffix {format rest : List Byte} {d : Directive}
    (parsed : parseDirective format = .ok (d, rest)) : d.specifier :: rest <:+ format := by
  obtain ⟨f₁, f₂, f₃, flags, width, precision, length⟩ := parseDirective_ok parsed
  have s₁ := parseFlags_suffix noFlags format
  have s₂ := parseField_suffix f₁
  have s₃ := parsePrecision_suffix f₂
  have s₄ := parseLength_suffix f₃
  rw [flags] at s₁
  rw [width] at s₂
  rw [precision] at s₃
  rw [length] at s₄
  exact s₄.trans (s₃.trans (s₂.trans s₁))

theorem parseDirective_shorter {format rest : List Byte} {d : Directive}
    (parsed : parseDirective format = .ok (d, rest)) : rest.length < format.length :=
  (parseDirective_suffix parsed).length_le

/-- More turns than characters change nothing. -/
theorem printLoop_fuel (converts : Directive → Printing → Except Stray Printing) {fuel more : Nat} {format : List Byte}
    (enough : format.length < fuel) (le : fuel ≤ more) (s : Printing) :
    printLoop converts more format s = printLoop converts fuel format s := by
  induction fuel generalizing more format s with
  | zero => exact absurd enough (Nat.not_lt_zero _)
  | succ fuel ih =>
    obtain ⟨more, rfl⟩ := Nat.exists_eq_add_of_lt le
    cases format with
    | nil => rfl
    | cons c format =>
      have short : format.length < fuel := Nat.lt_of_succ_lt_succ enough
      have turn : ∀ rest s, rest.length ≤ format.length →
          printLoop converts (fuel + more) rest s = printLoop converts fuel rest s :=
        fun rest s shorter => ih (Nat.lt_of_le_of_lt shorter short) (Nat.le_add_right fuel more) s
      rw [printLoop, printLoop]
      split
      · rfl
      · split
        · cases parsed : parseDirective format with
          | error e => rfl
          | ok result =>
            obtain ⟨d, rest⟩ := result
            have shorter := parseDirective_shorter parsed
            exact bind_congr (x := converts d s) (fun s => turn rest s (Nat.le_of_lt shorter))
        · exact turn format _ (Nat.le_refl _)

theorem emitInteger_some {flags : Flags} {lengthSpec : Int} {r : Radix} {length : Length} {args rest : List Word} {i : Int}
    (arg : integerArg r.signed length args = .ok (some i, rest)) :
    emitInteger flags lengthSpec r length args =
      (number flags lengthSpec r.base i).map (fun cs => ((if flags.altForm then r.alt else []) ++ cs, rest)) := by
  simp only [emitInteger, arg, bind, Except.bind]
  cases number flags lengthSpec r.base i <;> rfl

/-- A directive that is not %n displays what it emits. -/
theorem convert_text {floats : Floats} {d : Directive} (text : d.specifier ≠ ch 'n') {s : Printing} {w q : Int}
    {args₁ args₂ : List Word} (width : fieldArg d.lengthSpec s.args = .ok (w, args₁))
    (precision : fieldArg d.precSpec args₁ = .ok (q, args₂)) :
    convert floats d s = (emit floats d w q s.mem args₂).map (fun r => displayString { s with args := r.2 } r.1) := by
  simp only [convert, width, precision, Runs.ok_bind, if_neg text]
  cases emit floats d w q s.mem args₂ <;> rfl

section Equations

variable (floats : Floats) (format : List Byte) (s : Printing)

theorem print_nul : print floats (0 :: format) s = .ok s := by simp [print, printLoop]

theorem print_char {c : Byte} (nonzero : c ≠ 0) (plain : c ≠ ch '%') :
    print floats (c :: format) s = print floats format (displayCharacter s c) := by
  simp only [print, List.length_cons, printLoop, if_neg nonzero, if_neg plain]

theorem print_directive : print floats (ch '%' :: format) s = (do
    let (d, format) ← parseDirective format
    let s ← convert floats d s
    print floats format s) := by
  have nonzero : ch '%' ≠ 0 := by decide
  simp only [print, List.length_cons, printLoop, if_neg nonzero, if_true]
  cases parsed : parseDirective format with
  | error e => rfl
  | ok result =>
    obtain ⟨d, rest⟩ := result
    cases converted : convert floats d s with
    | error e => simp [bind, Except.bind, converted]
    | ok s =>
      have shorter := parseDirective_shorter parsed
      simp only [bind, Except.bind, converted]
      exact printLoop_fuel (convert floats) (Nat.lt_succ_self _) (Nat.succ_le_succ (Nat.le_of_lt shorter)) s

theorem print_parsed {d : Directive} {rest : List Byte} (parsed : parseDirective format = .ok (d, rest)) :
    print floats (ch '%' :: format) s = convert floats d s >>= print floats rest := by
  rw [print_directive, parsed]
  rfl

end Equations

/- The directives that are only a specifier. -/
def bare (specifier : Byte) : Directive := ⟨noFlags, .value 0, .value 6, .none, specifier⟩

theorem parse_bare {c : Byte} (short : c ∈ [ch '%', ch 'c', ch 'd', ch 's']) (rest : List Byte) :
    parseDirective (c :: rest) = .ok (bare c, rest) := by
  simp only [List.mem_cons, List.not_mem_nil, or_false] at short
  rcases short with rfl | rfl | rfl | rfl <;> rfl

/-- A format that is one such directive. -/
theorem vprintf_bare (floats : Floats) {c : Byte} (short : c ∈ [ch '%', ch 'c', ch 'd', ch 's']) (args : List Word)
    (mem : Nat → Byte) :
    vprintf floats [ch '%', c] args mem =
      (emit floats (bare c) 0 6 mem args).map (fun r => displayString ⟨[], 0, r.2, mem⟩ r.1) := by
  have text : c ≠ ch 'n' := by
    rintro rfl
    exact absurd short (by decide)
  have two : [ch '%', c].length < 2147483648 := show 2 < 2147483648 by decide
  rw [vprintf, if_pos two, List.cons_append, List.singleton_append, print_parsed floats _ _ (parse_bare short [0]),
    convert_text text rfl rfl]
  dsimp only
  cases emit floats (bare c) 0 6 mem args with
  | error e => rfl
  | ok r => exact print_nul floats [] _

end Icix.Libc
