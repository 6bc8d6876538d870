import Icix.Libc.Printf

/-! Formats that vprintf reads to their end print one after the other what each of them
prints alone. -/
namespace Icix.Libc
open Bytes

/-- Formats in which every directive has its specifier, neither %n nor one of the
floating-point conversions. -/
inductive Complete : List Byte → Prop
  | nil : Complete []
  | char {c : Byte} {format : List Byte} :
      c ≠ 0 → c ≠ ch '%' → Complete format → Complete (c :: format)
  | directive {format rest : List Byte} {d : Directive} :
      parseDirective format = .ok (d, rest) → d.specifier ≠ 0 → d.specifier ≠ ch 'n' →
        floating d.specifier = false → Complete rest → Complete (ch '%' :: format)

section Parsing

variable {format : List Byte} (more : List Byte)

/- What stops a parser before the end of the format stops it when more follows. -/
theorem parseFlags_append (flags : Flags) (stopped : (parseFlags flags format).2 ≠ []) :
    parseFlags flags (format ++ more) = ((parseFlags flags format).1, (parseFlags flags format).2 ++ more) := by
  induction format generalizing flags with
  | nil => exact absurd rfl stopped
  | cons c format ih =>
    rw [List.cons_append, parseFlags]
    rw [parseFlags] at stopped ⊢
    cases read : flag flags c with
    | some flags =>
      rw [read] at stopped
      exact ih flags stopped
    | none => rfl

theorem parseDigits_append (n : Int) (stopped : (parseDigits n format).2 ≠ []) :
    parseDigits n (format ++ more) = ((parseDigits n format).1, (parseDigits n format).2 ++ more) := by
  induction format generalizing n with
  | nil => exact absurd rfl stopped
  | cons c format ih =>
    rw [List.cons_append, parseDigits]
    rw [parseDigits] at stopped ⊢
    split
    · rename_i digit
      rw [if_pos digit] at stopped
      exact ih _ stopped
    · rfl

theorem head_append {format : List Byte} (nonempty : format ≠ []) : (format ++ more).head? = format.head? := by
  cases format with
  | nil => exact absurd rfl nonempty
  | cons c format => rfl

theorem parseField_append (stopped : (parseField format).2 ≠ []) :
    parseField (format ++ more) = ((parseField format).1, (parseField format).2 ++ more) := by
  have digits : (parseDigits 0 format).2 ≠ [] := by
    intro none
    apply stopped
    simp only [parseField, none]
    rfl
  simp only [parseField, parseDigits_append more 0 digits, head_append more digits,
    List.tail_append_of_ne_nil digits]
  split <;> rfl

theorem parsePrecision_append (stopped : (parsePrecision format).2 ≠ []) :
    parsePrecision (format ++ more) = ((parsePrecision format).1, (parsePrecision format).2 ++ more) := by
  have nonempty : format ≠ [] := by
    rintro rfl
    exact stopped rfl
  rw [parsePrecision] at stopped
  simp only [parsePrecision, head_append more nonempty, List.tail_append_of_ne_nil nonempty]
  split
  · rename_i point
    rw [if_pos point] at stopped
    exact parseField_append more stopped
  · rfl

theorem parseLength_append (stopped : (parseLength format).2 ≠ []) :
    parseLength (format ++ more) = ((parseLength format).1, (parseLength format).2 ++ more) := by
  cases format with
  | nil => exact absurd rfl stopped
  | cons c format =>
    rw [parseLength] at stopped ⊢
    rw [List.cons_append, parseLength]
    cases read : modifier c with
    | none => rfl
    | some length =>
      rw [read] at stopped
      have nonempty : format ≠ [] := by
        rintro rfl
        exact stopped rfl
      simp only [head_append more nonempty, List.tail_append_of_ne_nil nonempty]
      split
      · rfl
      · split <;> rfl

theorem parseDirective_append {rest : List Byte} {d : Directive} (parsed : parseDirective format = .ok (d, rest)) :
    parseDirective (format ++ more) = .ok (d, rest ++ more) := by
  obtain ⟨f₁, f₂, f₃, flags, width, precision, length⟩ := parseDirective_ok parsed
  have nonempty₃ : f₃ ≠ [] := by
    rintro rfl
    exact List.cons_ne_nil _ _ (congrArg Prod.snd length).symm
  have nonempty₂ : f₂ ≠ [] := by
    rintro rfl
    exact nonempty₃ (congrArg Prod.snd precision).symm
  have nonempty₁ : f₁ ≠ [] := by
    rintro rfl
    exact nonempty₂ (congrArg Prod.snd width).symm
  have flags' := parseFlags_append more noFlags (by rw [flags]; exact nonempty₁)
  have width' := parseField_append more (by rw [width]; exact nonempty₂)
  have precision' := parsePrecision_append more (by rw [precision]; exact nonempty₃)
  have length' := parseLength_append more (by rw [length]; exact List.cons_ne_nil _ _)
  rw [flags] at flags'
  rw [width] at width'
  rw [precision] at precision'
  rw [length] at length'
  simp only [parseDirective, flags', width', precision', length', List.cons_append]

end Parsing

/-- What follows a complete format is printed from where it has come to. -/
theorem print_append (floats : Floats) {format : List Byte} (complete : Complete format) (more : List Byte)
    (s : Printing) :
    print floats (format ++ more) s = print floats (format ++ [0]) s >>= print floats more := by
  induction complete generalizing s with
  | nil => rw [List.nil_append, List.nil_append, print_nul, Runs.ok_bind]
  | char nonzero plain _ ih =>
    rw [List.cons_append, List.cons_append, print_char floats _ s nonzero plain, print_char floats _ s nonzero plain, ih]
  | @directive format rest d parsed _ _ _ _ ih =>
    rw [List.cons_append, List.cons_append, print_parsed floats _ s (parseDirective_append more parsed),
      print_parsed floats _ s (parseDirective_append [0] parsed)]
    cases convert floats d s with
    | error e => rfl
    | ok s => exact ih s

section Arguments

variable {args rest : List Word} (more : List Word)

/- Arguments after those that are consumed stay. -/
theorem fieldArg_append {field : Field} {n : Int} (taken : fieldArg field args = .ok (n, rest)) :
    fieldArg field (args ++ more) = .ok (n, rest ++ more) := by
  cases field with
  | value n =>
    cases taken
    rfl
  | star =>
    cases args with
    | nil => cases taken
    | cons w args =>
      cases taken
      rfl

theorem integerArg_append {signed : Bool} {length : Length} {i : Option Int}
    (taken : integerArg signed length args = .ok (i, rest)) :
    integerArg signed length (args ++ more) = .ok (i, rest ++ more) := by
  cases length with
  | L =>
    cases taken
    rfl
  | q =>
    cases args with
    | nil => cases taken
    | cons low args =>
      cases args with
      | nil => cases taken
      | cons high args =>
        cases taken
        rfl
  | none | H | h | l | j | z | t =>
    cases args with
    | nil => cases taken
    | cons w args =>
      cases taken
      rfl

theorem emitInteger_append {flags : Flags} {lengthSpec : Int} {r : Radix} {length : Length} {cs : List Byte}
    (emitted : emitInteger flags lengthSpec r length args = .ok (cs, rest)) :
    emitInteger flags lengthSpec r length (args ++ more) = .ok (cs, rest ++ more) := by
  obtain ⟨⟨i, _⟩, arg, emitted⟩ := Runs.bind_ok.mp emitted
  rw [emitInteger, integerArg_append more arg, Runs.ok_bind]
  cases i with
  | none =>
    cases emitted
    rfl
  | some i =>
    obtain ⟨text, number, emitted⟩ := Runs.bind_ok.mp emitted
    cases emitted
    simp only [number, Runs.ok_bind]

theorem emitCharacter_append {cs : List Byte} (emitted : emitCharacter args = .ok (cs, rest)) :
    emitCharacter (args ++ more) = .ok (cs, rest ++ more) := by
  cases args with
  | nil => cases emitted
  | cons w args =>
    cases emitted
    rfl

theorem emitString_append {mem : Nat → Byte} {cs : List Byte} (emitted : emitString mem args = .ok (cs, rest)) :
    emitString mem (args ++ more) = .ok (cs, rest ++ more) := by
  cases args with
  | nil => cases emitted
  | cons p args =>
    simp only [emitString, vaArg, List.cons_append, Runs.ok_bind] at emitted ⊢
    split at emitted
    · rename_i read
      cases emitted
      rfl
    · cases emitted

theorem emit_append {floats : Floats} {d : Directive} (plain : floating d.specifier = false) {lengthSpec precSpec : Int}
    {mem : Nat → Byte} {cs : List Byte} (emitted : emit floats d lengthSpec precSpec mem args = .ok (cs, rest)) :
    emit floats d lengthSpec precSpec mem (args ++ more) = .ok (cs, rest ++ more) := by
  unfold emit at emitted ⊢
  cases integer : radix d.specifier with
  | some r =>
    rw [integer] at emitted
    exact emitInteger_append more emitted
  | none =>
    rw [integer] at emitted
    simp only [plain, Bool.false_eq_true, if_false] at emitted ⊢
    by_cases c : d.specifier = ch 'c'
    · rw [if_pos c] at emitted ⊢
      exact emitCharacter_append more emitted
    · rw [if_neg c] at emitted ⊢
      by_cases s : d.specifier = ch 's'
      · rw [if_pos s] at emitted ⊢
        exact emitString_append more emitted
      · rw [if_neg s] at emitted ⊢
        cases emitted
        rfl

end Arguments

/-- A directive prints the same whatever was printed before, and whatever arguments follow. -/
theorem convert_ok {floats : Floats} {d : Directive} (text : d.specifier ≠ ch 'n') (plain : floating d.specifier = false)
    {out : List Byte} {n : Int} {args : List Word} {mem : Nat → Byte} {s : Printing}
    (ran : convert floats d ⟨out, int32 n, args, mem⟩ = .ok s) :
    ∃ cs rest, s = ⟨out ++ cs, int32 (n + cs.length), rest, mem⟩ ∧ ∀ out' n' more,
      convert floats d ⟨out', int32 n', args ++ more, mem⟩ = .ok ⟨out' ++ cs, int32 (n' + cs.length), rest ++ more, mem⟩ := by
  obtain ⟨⟨w, args₁⟩, width, ran₁⟩ := Runs.bind_ok.mp ran
  obtain ⟨⟨q, args₂⟩, precision, ran₂⟩ := Runs.bind_ok.mp ran₁
  rw [convert_text text width precision] at ran
  obtain ⟨⟨cs, rest⟩, emitted, shown⟩ := Runs.map_ok.mp ran
  refine ⟨cs, rest, ?_, ?_⟩
  · rw [← shown]
    exact displayString_eq rfl cs
  · intro out' n' more
    have emitted' := emit_append more plain emitted
    rw [convert_text text (fieldArg_append more width) (fieldArg_append more precision), emitted']
    exact congrArg Except.ok (displayString_eq rfl cs)

theorem print_ok {floats : Floats} {format : List Byte} (complete : Complete format) {out : List Byte} {n : Int}
    {args : List Word} {mem : Nat → Byte} {s : Printing}
    (ran : print floats (format ++ [0]) ⟨out, int32 n, args, mem⟩ = .ok s) :
    ∃ cs rest, s = ⟨out ++ cs, int32 (n + cs.length), rest, mem⟩ ∧ ∀ out' n' more,
      print floats (format ++ [0]) ⟨out', int32 n', args ++ more, mem⟩ =
        .ok ⟨out' ++ cs, int32 (n' + cs.length), rest ++ more, mem⟩ := by
  induction complete generalizing out n args s with
  | nil =>
    rw [List.nil_append, print_nul] at ran
    refine ⟨[], args, ?_, ?_⟩
    · rw [List.append_nil, List.length_nil, Int.natCast_zero, Int.add_zero]
      exact (Except.ok.inj ran).symm
    · intro out' n' more
      rw [List.nil_append, print_nul, List.append_nil, List.length_nil, Int.natCast_zero, Int.add_zero]
  | @char c format nonzero plain _ ih =>
    have shown : ∀ out n args, displayCharacter ⟨out, int32 n, args, mem⟩ c = ⟨out ++ [c], int32 (n + 1), args, mem⟩ :=
      fun out n args => displayString_eq (s := ⟨out, int32 n, args, mem⟩) rfl [c]
    rw [List.cons_append, print_char floats _ _ nonzero plain, shown] at ran
    obtain ⟨cs, rest, rfl, again⟩ := ih ran
    have sum : ∀ n : Int, n + 1 + cs.length = n + (c :: cs).length := by
      intro n
      rw [List.length_cons]
      omega
    refine ⟨c :: cs, rest, ?_, ?_⟩
    · rw [sum, List.append_assoc, List.singleton_append]
    · intro out' n' more
      rw [List.cons_append, print_char floats _ _ nonzero plain, shown, again, sum, List.append_assoc,
        List.singleton_append]
  | @directive format rest d parsed _ text plain _ ih =>
    rw [List.cons_append, print_parsed floats _ _ (parseDirective_append [0] parsed)] at ran
    obtain ⟨t, converted, ran⟩ := Runs.bind_ok.mp ran
    obtain ⟨cs, args₁, rfl, convertAgain⟩ := convert_ok text plain converted
    obtain ⟨ds, args₂, rfl, printAgain⟩ := ih ran
    have sum : ∀ n : Int, n + cs.length + ds.length = n + (cs ++ ds).length := by
      intro n
      rw [List.length_append]
      omega
    refine ⟨cs ++ ds, args₂, ?_, ?_⟩
    · rw [sum, List.append_assoc]
    · intro out' n' more
      rw [List.cons_append, print_parsed floats _ _ (parseDirective_append [0] parsed), convertAgain, Runs.ok_bind,
        printAgain, sum, List.append_assoc]

/- A run of vprintf on a complete format starts from nothing. -/
theorem vprintf_ok {floats : Floats} {format : List Byte} (complete : Complete format) {args : List Word}
    {mem : Nat → Byte} {s : Printing} (ran : vprintf floats format args mem = .ok s) :
    ∃ cs rest, s = ⟨cs, int32 cs.length, rest, mem⟩ ∧ ∀ out n more,
      print floats (format ++ [0]) ⟨out, int32 n, args ++ more, mem⟩ =
        .ok ⟨out ++ cs, int32 (n + cs.length), rest ++ more, mem⟩ := by
  unfold vprintf at ran
  split at ran
  · obtain ⟨cs, rest, same, again⟩ := print_ok (n := 0) complete ran
    rw [List.nil_append, Int.zero_add] at same
    exact ⟨cs, rest, same, again⟩
  · cases ran

theorem vprintf_join {floats : Floats} {f₁ f₂ : List Byte} (c₁ : Complete f₁) (c₂ : Complete f₂) {a₁ a₂ : List Word}
    {mem : Nat → Byte} {s₁ s₂ : Printing} (ran₁ : vprintf floats f₁ a₁ mem = .ok s₁) (consumed : s₁.args = [])
    (ran₂ : vprintf floats f₂ a₂ mem = .ok s₂) (index : (f₁ ++ f₂).length < 2147483648) :
    vprintf floats (f₁ ++ f₂) (a₁ ++ a₂) mem =
      .ok ⟨s₁.out ++ s₂.out, int32 (s₁.out.length + s₂.out.length), s₂.args, mem⟩ := by
  obtain ⟨cs, none, rfl, first⟩ := vprintf_ok c₁ ran₁
  obtain ⟨ds, rest, rfl, second⟩ := vprintf_ok c₂ ran₂
  cases consumed
  have start := first [] 0 a₂
  have stop := second cs cs.length []
  rw [List.nil_append, List.nil_append, Int.zero_add] at start
  rw [List.append_nil, List.append_nil] at stop
  rw [vprintf, if_pos index, List.append_assoc, print_append floats c₁]
  exact (congrArg (· >>= print floats (f₂ ++ [0])) start).trans stop

theorem vprintf_count {floats : Floats} {format : List Byte} (complete : Complete format) {args : List Word}
    {mem : Nat → Byte} {s : Printing} (ran : vprintf floats format args mem = .ok s) : s.chars = int32 s.out.length := by
  obtain ⟨cs, rest, same, -⟩ := vprintf_ok complete ran
  rw [same]

/-- A complete format followed by another prints what both print, from the arguments of both,
and returns the sum of what both return as an int, which is the number of the characters. -/
theorem vprintf_append {floats : Floats} {f₁ f₂ : List Byte} (c₁ : Complete f₁) (c₂ : Complete f₂) {a₁ a₂ : List Word}
    {mem : Nat → Byte} {s₁ s₂ : Printing} (ran₁ : vprintf floats f₁ a₁ mem = .ok s₁) (consumed : s₁.args = [])
    (ran₂ : vprintf floats f₂ a₂ mem = .ok s₂) (index : (f₁ ++ f₂).length < 2147483648) :
    ∃ s, vprintf floats (f₁ ++ f₂) (a₁ ++ a₂) mem = .ok s ∧ s.out = s₁.out ++ s₂.out ∧ s.args = s₂.args ∧
      s.chars = int32 (s₁.chars + s₂.chars) ∧ s.chars = int32 s.out.length ∧
      (s.out.length < 2147483648 → s.chars = s₁.chars + s₂.chars ∧ s.chars = s.out.length) := by
  have length : ((s₁.out ++ s₂.out).length : Int) = s₁.out.length + s₂.out.length := by
    rw [List.length_append, Int.natCast_add]
  refine ⟨_, vprintf_join c₁ c₂ ran₁ consumed ran₂ index, rfl, rfl, ?_⟩
  dsimp only
  rw [vprintf_count c₁ ran₁, vprintf_count c₂ ran₂, int32_add, length]
  refine ⟨rfl, rfl, ?_⟩
  intro short
  rw [int32_eq (x := (s₁.out.length + s₂.out.length : Int)) (by omega) (by omega),
    int32_eq (x := (s₁.out.length : Int)) (by omega) (by omega),
    int32_eq (x := (s₂.out.length : Int)) (by omega) (by omega)]
  exact ⟨rfl, rfl⟩

theorem vprintf_append_small :
    let floats : Floats := fun _ _ _ _ _ => .error .argument
    ∃ s, vprintf floats ([ch '%', ch 'd'] ++ [ch '!']) ([4] ++ []) zeros = .ok s ∧ s.out = [ch '4'] ++ [ch '!'] ∧
      s.args = [] ∧ s.chars = int32 (1 + 1) ∧ s.chars = int32 s.out.length ∧
      (s.out.length < 2147483648 → s.chars = 1 + 1 ∧ s.chars = s.out.length) := by
  intro floats
  have first : vprintf floats [ch '%', ch 'd'] [4] zeros = .ok ⟨[ch '4'], 1, [], zeros⟩ := rfl
  have second : vprintf floats [ch '!'] [] zeros = .ok ⟨[ch '!'], 1, [], zeros⟩ := rfl
  have complete : Complete [ch '%', ch 'd'] :=
    .directive (parse_bare (by decide) []) (by decide) (by decide) rfl .nil
  exact vprintf_append complete (.char (by decide) (by decide) .nil) first rfl second (by decide)

def percentS : List Byte := [ch '%', ch 's']

theorem percentS_complete : Complete percentS :=
  .directive (parse_bare (by decide) []) (by decide) (by decide) rfl .nil

theorem vprintf_percentS (floats : Floats) {mem : Nat → Byte} {p : Word} {cs : List Byte} (args : List Word)
    (holds : Holds (view mem p.toNat) cs) (short : cs.length < 2147483648) :
    vprintf floats percentS (p :: args) mem = .ok ⟨cs, int32 cs.length, args, mem⟩ := by
  have emitted : emit floats (bare (ch 's')) 0 6 mem (p :: args) = .ok (cs, args) := by
    change emitString mem (p :: args) = _
    simp only [emitString, vaArg, Runs.ok_bind, readString_eq_some.mpr ⟨holds, short⟩]
  have shown := displayString_eq (s := ⟨[], 0, args, mem⟩) (n := 0) rfl cs
  rw [Int.zero_add, List.nil_append] at shown
  rw [percentS, vprintf_bare floats (by decide), emitted]
  exact congrArg Except.ok shown

/- Strings of n characters, alone and in sequence. -/
theorem vprintf_long (floats : Floats) {n : Nat} (short : n < 2147483648) :
    let mem : Nat → Byte := fun k => if k < n then ch 'a' else 0
    vprintf floats percentS [0] mem = .ok ⟨List.replicate n (ch 'a'), int32 n, [], mem⟩ ∧
      vprintf floats (percentS ++ percentS) ([0] ++ [0]) mem =
        .ok ⟨List.replicate n (ch 'a') ++ List.replicate n (ch 'a'), int32 (n + n), [], mem⟩ := by
  intro mem
  have holds : Holds (view mem (0 : Word).toNat) (List.replicate n (ch 'a')) := by
    apply holds_replicate (by decide)
    · intro k inside
      have place : (0 : Word).toNat + k < n := by simpa using inside
      exact if_pos place
    · have place : ¬ (0 : Word).toNat + n < n := by simp
      exact if_neg place
  have one := vprintf_percentS floats [] holds (by rw [List.length_replicate]; exact short)
  have two := vprintf_join percentS_complete percentS_complete one rfl one (by decide)
  rw [List.length_replicate] at one two
  exact ⟨one, two⟩

/-- Two strings of 2^30 characters, and a count of -2^31. -/
theorem vprintf_count_wraps :
    let floats : Floats := fun _ _ _ _ _ => .error .argument
    let mem : Nat → Byte := fun k => if k < 1073741824 then ch 'a' else 0
    Complete percentS ∧ ∃ s₁ s, vprintf floats percentS [0] mem = .ok s₁ ∧ s₁.args = [] ∧
      vprintf floats (percentS ++ percentS) ([0] ++ [0]) mem = .ok s ∧
      s.chars ≠ s₁.chars + s₁.chars ∧ s.chars ≠ s.out.length := by
  intro floats mem
  have long := vprintf_long floats (n := 1073741824) (by decide)
  have count : int32 ((1073741824 : Nat) : Int) = 1073741824 := by decide
  have wrapped : int32 (((1073741824 : Nat) : Int) + ((1073741824 : Nat) : Int)) = -2147483648 := by decide
  refine ⟨percentS_complete, _, _, long.1, rfl, long.2, ?_⟩
  dsimp only
  rw [List.length_append, List.length_replicate, count, wrapped]
  decide

end Icix.Libc
