import Icix.Libc.Printf

/-! How far vprintf reads its format. A directive that the NUL cuts off takes the NUL for its
specifier, and the loop goes on behind it. Only the format decides where the index goes. -/
namespace Icix.Libc
open Bytes

/-- vprintf with any conversions in the place of its own. -/
def vprintfWith (converts : Directive → Printing → Except Stray Printing) (format : List Byte) (args : List Word)
    (mem : Nat → Byte) : Except Stray Printing :=
  if format.length < 2147483648 then printLoop converts (format.length + 2) (format ++ [0]) ⟨[], 0, args, mem⟩
  else .error .format

theorem vprintf_with (floats : Floats) : vprintf floats = vprintfWith (convert floats) := by
  funext format args mem
  rw [vprintf, print, List.length_append]
  rfl

/-- A format up to its NUL in which every directive has its specifier before the NUL. -/
inductive Whole : List Byte → Prop
  | nul {rest : List Byte} : Whole (0 :: rest)
  | char {c : Byte} {format : List Byte} : c ≠ 0 → c ≠ ch '%' → Whole format → Whole (c :: format)
  | directive {format rest : List Byte} {d : Directive} :
      parseDirective format = .ok (d, rest) → d.specifier ≠ 0 → Whole rest → Whole (ch '%' :: format)

/- A string up to its NUL. -/
def Terminated (format : List Byte) : Prop := ∃ f, format = f ++ [0] ∧ ∀ c ∈ f, c ≠ 0

theorem terminated_suffix {format rest : List Byte} {c : Byte} (ends : Terminated format)
    (suffix : c :: rest <:+ format) : c = 0 ∧ rest = [] ∨ c ≠ 0 ∧ Terminated rest := by
  obtain ⟨f, rfl, nonzero⟩ := ends
  obtain ⟨front, whole⟩ := suffix
  rcases List.eq_nil_or_concat' rest with rfl | ⟨middle, b, rfl⟩
  · obtain ⟨-, last⟩ := List.append_inj' whole rfl
    cases last
    exact .inl ⟨rfl, rfl⟩
  · have split : (front ++ c :: middle) ++ [b] = f ++ [0] := by
      rw [← whole, List.append_assoc, List.cons_append]
    obtain ⟨first, last⟩ := List.append_inj' split rfl
    cases last
    subst first
    refine .inr ⟨nonzero c (by simp), middle, rfl, fun b mem => nonzero b ?_⟩
    exact List.mem_append_right _ (List.mem_cons_of_mem c mem)

theorem parseDirective_error {format : List Byte} {e : Stray} (failed : parseDirective format = .error e) :
    e = .format := by
  simp only [parseDirective] at failed
  split at failed
  · exact (Except.error.inj failed).symm
  · cases failed

section Loop

variable {converts : Directive → Printing → Except Stray Printing} {format : List Byte} {fuel : Nat}

/-- In a whole format only a conversion can keep the loop from its end. -/
theorem loop_whole (whole : Whole format) (enough : format.length < fuel) {s : Printing} {e : Stray}
    (strays : printLoop converts fuel format s = .error e) : ∃ d t, converts d t = .error e := by
  induction whole generalizing fuel s with
  | nul =>
    cases fuel with
    | zero => exact absurd enough (Nat.not_lt_zero _)
    | succ fuel =>
      rw [printLoop, if_pos rfl] at strays
      cases strays
  | char nonzero plain _ ih =>
    cases fuel with
    | zero => exact absurd enough (Nat.not_lt_zero _)
    | succ fuel =>
      rw [printLoop, if_neg nonzero, if_neg plain] at strays
      exact ih (Nat.lt_of_succ_lt_succ enough) strays
  | @directive format rest d parsed _ _ ih =>
    cases fuel with
    | zero => exact absurd enough (Nat.not_lt_zero _)
    | succ fuel =>
      have shorter := parseDirective_shorter parsed
      rw [List.length_cons] at enough
      rw [printLoop, if_neg (by decide), if_pos rfl, parsed, Runs.ok_bind] at strays
      cases converted : converts d s with
      | error e' =>
        dsimp only at strays
        rw [converted] at strays
        cases strays
        exact ⟨d, s, converted⟩
      | ok t =>
        dsimp only at strays
        rw [converted, Runs.ok_bind] at strays
        exact ih (by omega) strays

/-- Where conversions always come back, the loop goes past the NUL of any other format. -/
theorem loop_past (back : ∀ d s, ∃ t, converts d s = .ok t) (ends : Terminated format) (cut : ¬ Whole format)
    (enough : format.length < fuel) (s : Printing) : printLoop converts fuel format s = .error .format := by
  induction length : format.length using Nat.strong_induction_on generalizing format fuel s with
  | _ n ih =>
    cases fuel with
    | zero => exact absurd enough (Nat.not_lt_zero _)
    | succ fuel =>
      cases format with
      | nil => rfl
      | cons c format =>
        rw [List.length_cons] at length enough
        obtain ⟨rfl, -⟩ | ⟨nonzero, tail⟩ := terminated_suffix ends (List.suffix_refl _)
        · exact absurd .nul cut
        · rw [printLoop, if_neg nonzero]
          by_cases percent : c = ch '%'
          · subst percent
            rw [if_pos rfl]
            cases parsed : parseDirective format with
            | error e => rw [parseDirective_error parsed, Runs.error_bind]
            | ok result =>
              obtain ⟨d, rest⟩ := result
              have shorter := parseDirective_shorter parsed
              obtain ⟨t, converted⟩ := back d s
              rw [Runs.ok_bind]
              dsimp only
              rw [converted, Runs.ok_bind]
              obtain ⟨-, rfl⟩ | ⟨specifier, behind⟩ := terminated_suffix tail (parseDirective_suffix parsed)
              · cases fuel with
                | zero => omega
                | succ fuel => rfl
              · exact ih rest.length (by omega) behind (fun whole => cut (.directive parsed specifier whole)) (by omega) t rfl
          · rw [if_neg percent]
            exact ih format.length (by omega) tail (fun whole => cut (.char nonzero percent whole)) (by omega) _ rfl

end Loop

/-- vprintf does not read its format past the NUL, and its loop ends: whatever its conversions do with
the arguments, the output and the memory, it fails only where one of them fails. -/
def ReadsInside (format : List Byte) : Prop :=
  ∀ converts args mem e, vprintfWith converts format args mem = .error e → ∃ d s, converts d s = .error e

/-- It does not if and only if an int can index the format and no directive is cut off by the NUL. -/
theorem vprintf_reads_inside {format : List Byte} (nonzero : ∀ c ∈ format, c ≠ 0) :
    ReadsInside format ↔ format.length < 2147483648 ∧ Whole (format ++ [0]) := by
  have enough : (format ++ [0]).length < format.length + 2 := by
    rw [List.length_append]
    exact Nat.lt_succ_self _
  constructor
  · intro inside
    have skips := fun strays => inside (fun _ s => .ok s) [] zeros .format strays
    have index : format.length < 2147483648 := by
      by_contra long
      obtain ⟨_, _, fails⟩ := skips (if_neg long)
      cases fails
    refine ⟨index, ?_⟩
    by_contra cut
    obtain ⟨_, _, fails⟩ := skips ((if_pos index).trans
      (loop_past (fun _ s => ⟨s, rfl⟩) ⟨format, rfl, nonzero⟩ cut enough _))
    cases fails
  · rintro ⟨index, whole⟩ converts args mem e strays
    rw [vprintfWith, if_pos index] at strays
    exact loop_whole whole enough strays

/- %-5ld. -/
theorem vprintf_reads_inside_long : ReadsInside [ch '%', ch '-', ch '5', ch 'l', ch 'd'] := by
  apply (vprintf_reads_inside (by decide)).mpr
  exact ⟨by decide, .directive rfl (by decide) .nul⟩

/-- A percent sign at the end. -/
theorem vprintf_reads_past : (∀ floats args mem, vprintf floats [ch 'a', ch '%'] args mem = .error .format) ∧
    ¬ ReadsInside [ch 'a', ch '%'] := by
  refine ⟨fun floats args mem => ?_, fun inside => ?_⟩
  · cases args <;> rfl
  · obtain ⟨_, _, fails⟩ := inside (fun _ s => .ok s) [] zeros .format rfl
    cases fails

end Icix.Libc
