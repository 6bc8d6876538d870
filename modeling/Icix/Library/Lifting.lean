import Icix.Library.Runs

/-! Two fallible computations side by side: they fail alike, or both return and their results
are related. A run can do without the steps after which the same holds as before. -/
namespace Lifting
open Runs

variable {ε α α' β β' σ τ : Type}

inductive Lifts (R : α → β → Prop) : Except ε α → Except ε β → Prop
  | ok {a : α} {b : β} (related : R a b) : Lifts R (.ok a) (.ok b)
  | error (e : ε) : Lifts R (.error e) (.error e)

namespace Lifts

variable {R : α → β → Prop} {S : α' → β' → Prop} {x : Except ε α} {y : Except ε β}

theorem refl {R : α → α → Prop} (all : ∀ a, R a a) (x : Except ε α) : Lifts R x x := by
  cases x with
  | ok a => exact .ok (all a)
  | error e => exact .error e

theorem imp {R' : α → β → Prop} (lifts : Lifts R x y) (weaker : ∀ a b, R a b → R' a b) : Lifts R' x y := by
  cases lifts with
  | ok related => exact .ok (weaker _ _ related)
  | error e => exact .error e

theorem bind {f : α → Except ε α'} {g : β → Except ε β'} (lifts : Lifts R x y)
    (next : ∀ a b, R a b → Lifts S (f a) (g b)) : Lifts S (x >>= f) (y >>= g) := by
  cases lifts with
  | ok related => exact next _ _ related
  | error e => exact .error e

/-- A computation that both sides share. -/
theorem bind_same {γ : Type} {z : Except ε γ} {f : γ → Except ε α} {g : γ → Except ε β}
    (next : ∀ c, Lifts R (f c) (g c)) : Lifts R (z >>= f) (z >>= g) := by
  cases z with
  | ok c => exact next c
  | error e => exact .error e

theorem map {f : α → α'} {g : β → β'} (lifts : Lifts R x y) (next : ∀ a b, R a b → S (f a) (g b)) :
    Lifts S (x.map f) (y.map g) := by
  cases lifts with
  | ok related => exact .ok (next _ _ related)
  | error e => exact .error e

theorem ite {x' : Except ε α} {y' : Except ε β} {c : Prop} [Decidable c] (yes : c → Lifts R x y)
    (no : ¬ c → Lifts R x' y') : Lifts R (if c then x else x') (if c then y else y') := by
  split
  · rename_i h
    exact yes h
  · rename_i h
    exact no h

/-- The results that are related are the ones returned. -/
theorem returned (lifts : Lifts R x y) : Lifts (fun a b => R a b ∧ x = .ok a) x y := by
  cases lifts with
  | ok related => exact .ok ⟨related, rfl⟩
  | error e => exact .error e

theorem ok_left {a : α} (lifts : Lifts R (.ok a) y) : ∃ b, y = .ok b ∧ R a b := by
  cases lifts with
  | ok related => exact ⟨_, rfl, related⟩

end Lifts

/-- Where the first computation returns the second does, with a related result. -/
def Follows {ε' : Type} (R : α → β → Prop) (x : Except ε α) (y : Except ε' β) : Prop :=
  ∀ a, x = .ok a → ∃ b, y = .ok b ∧ R a b

theorem Lifts.follows {R : α → β → Prop} {x y : Except ε _} (lifts : Lifts R x y) : Follows R x y := by
  rintro a rfl
  exact lifts.ok_left

namespace Follows

variable {ε' : Type} {R : α → β → Prop} {S : α' → β' → Prop} {x : Except ε α} {y : Except ε' β}

theorem ok {a : α} {b : β} (related : R a b) : Follows R (.ok a : Except ε α) (.ok b : Except ε' β) := by
  intro c returned
  cases Except.ok.inj returned
  exact ⟨b, rfl, related⟩

theorem error (e : ε) : Follows R (.error e) y := by
  intro a failed
  cases failed

theorem bind {f : α → Except ε α'} {g : β → Except ε' β'} (follows : Follows R x y)
    (next : ∀ a b, R a b → Follows S (f a) (g b)) : Follows S (x >>= f) (y >>= g) := by
  intro c done
  obtain ⟨a, first, rest⟩ := bind_ok.mp done
  obtain ⟨b, second, related⟩ := follows a first
  obtain ⟨d, last, same⟩ := next a b related c rest
  exact ⟨d, bind_ok.mpr ⟨b, second, last⟩, same⟩

theorem map {f : α → α'} {g : β → β'} (follows : Follows R x y) (next : ∀ a b, R a b → S (f a) (g b)) :
    Follows S (x.map f) (y.map g) := by
  intro c done
  obtain ⟨a, first, rfl⟩ := map_ok.mp done
  obtain ⟨b, second, related⟩ := follows a first
  exact ⟨g b, map_ok.mpr ⟨b, second, rfl⟩, next a b related⟩

theorem ite {x' : Except ε α} {y' : Except ε' β} {c : Prop} [Decidable c] (yes : c → Follows R x y)
    (no : ¬ c → Follows R x' y') : Follows R (if c then x else x') (if c then y else y') := by
  split
  · rename_i h
    exact yes h
  · rename_i h
    exact no h

end Follows

/-- Steps that a second machine may leave out: what is related before a step of the first is
related after it, whether the second takes the step too or stays. -/
theorem run_without {step : σ → α → Except ε σ} {step' : τ → α → Except ε τ} {guard : σ → α → Prop}
    (keeps : α → Bool) {R : σ → τ → Prop}
    (taken : ∀ s t a, R s t → guard s a → keeps a = true → Follows R (step s a) (step' t a))
    (left : ∀ s t a s', R s t → guard s a → keeps a = false → step s a = .ok s' → R s' t)
    {s s' : σ} {t : τ} {as : List α} (run : Run step guard s as s') (related : R s t) :
    ∃ t', Run step' (fun _ _ => True) t (as.filter keeps) t' ∧ R s' t' := by
  induction run generalizing t with
  | nil s => exact ⟨t, .nil t, related⟩
  | @cons s u s' a as met returned rest ih =>
    cases kept : keeps a with
    | true =>
      obtain ⟨v, taken, next⟩ := taken s t a related met kept u returned
      obtain ⟨t', run, last⟩ := ih next
      rw [List.filter_cons_of_pos kept]
      exact ⟨t', .cons trivial taken run, last⟩
    | false =>
      rw [List.filter_cons_of_neg (by simp [kept])]
      exact ih (left s t a u related met kept returned)

/-- A machine that follows each step of another follows its runs. -/
theorem run_follows {step : σ → α → Except ε σ} {step' : τ → α → Except ε τ} {guard : σ → α → Prop}
    {R : σ → τ → Prop} (taken : ∀ s t a, R s t → guard s a → Follows R (step s a) (step' t a))
    {s s' : σ} {t : τ} {as : List α} (run : Run step guard s as s') (related : R s t) :
    ∃ t', Run step' (fun _ _ => True) t as t' ∧ R s' t' := by
  have follows := run_without (fun _ => true) (fun s t a related met _ => taken s t a related met)
    (fun _ _ _ _ _ _ none => nomatch none) run related
  rwa [List.filter_eq_self.mpr fun _ _ => rfl] at follows

/- What a machine shows step after step, and its state then. -/
def shown (step : σ → α → β × σ) : σ → List α → List β × σ
  | s, [] => ([], s)
  | s, a :: as => ((step s a).1 :: (shown step (step s a).2 as).1, (shown step (step s a).2 as).2)

/-- Each of the steps meets the guard where it is taken. -/
def Met (step : σ → α → β × σ) (guard : σ → α → Prop) : σ → List α → Prop
  | _, [] => True
  | s, a :: as => guard s a ∧ Met step guard (step s a).2 as

instance instDecidableMet {step : σ → α → β × σ} {guard : σ → α → Prop} [∀ s a, Decidable (guard s a)] :
    (s : σ) → (as : List α) → Decidable (Met step guard s as)
  | _, [] => .isTrue trivial
  | s, a :: as =>
    @instDecidableAnd (guard s a) (Met step guard (step s a).2 as) _ (instDecidableMet (step s a).2 as)

theorem shown_same {step : σ → α → β × σ} {step' : τ → α → β × τ} {guard : τ → α → Prop} {R : σ → τ → Prop}
    (each : ∀ s t a, R s t → guard t a → (step s a).1 = (step' t a).1 ∧ R (step s a).2 (step' t a).2)
    {s : σ} {t : τ} {as : List α} (met : Met step' guard t as) (related : R s t) :
    (shown step s as).1 = (shown step' t as).1 ∧ R (shown step s as).2 (shown step' t as).2 := by
  induction as generalizing s t with
  | nil => exact ⟨rfl, related⟩
  | cons a as ih =>
    obtain ⟨same, next⟩ := each s t a related met.1
    obtain ⟨rest, last⟩ := ih met.2 next
    exact ⟨by simp only [shown, same, rest], last⟩

end Lifting
