import Mathlib.Logic.Relation

/-! Runs of a fallible step function, with a condition on every step, and the
induction rule for invariants of such runs. -/
namespace Runs

variable {σ α ε : Type}

theorem bind_ok {β γ : Type} {x : Except ε β} {f : β → Except ε γ} {c : γ} :
    x >>= f = .ok c ↔ ∃ b, x = .ok b ∧ f b = .ok c := by
  cases x with
  | error e => exact ⟨fun failed => (by cases failed), fun ⟨_, failed, _⟩ => (by cases failed)⟩
  | ok b => exact ⟨fun done => ⟨b, rfl, done⟩, fun ⟨_, same, done⟩ => Except.ok.inj same ▸ done⟩

@[simp] theorem ok_bind {β γ : Type} (c : β) (f : β → Except ε γ) : (Except.ok c >>= f) = f c := rfl

@[simp] theorem error_bind {β γ : Type} (e : ε) (f : β → Except ε γ) :
    ((Except.error e : Except ε β) >>= f) = .error e := rfl

theorem map_ok {β γ : Type} {x : Except ε β} {f : β → γ} {c : γ} :
    x.map f = .ok c ↔ ∃ b, x = .ok b ∧ f b = c := by
  cases x with
  | error e => exact ⟨fun failed => (by cases failed), fun ⟨_, failed, _⟩ => (by cases failed)⟩
  | ok b => exact ⟨fun done => ⟨b, rfl, Except.ok.inj done⟩, fun ⟨_, same, done⟩ => Except.ok.inj same ▸ done ▸ rfl⟩

instance decidableEqExcept {β : Type} [DecidableEq ε] [DecidableEq β] : DecidableEq (Except ε β)
  | .ok b, .ok c => decidable_of_iff (b = c) ⟨congrArg _, Except.ok.inj⟩
  | .error e, .error f => decidable_of_iff (e = f) ⟨congrArg _, Except.error.inj⟩
  | .ok _, .error _ => isFalse nofun
  | .error _, .ok _ => isFalse nofun

/-- A run from s to t through the actions as: every step returned, and met the guard. -/
inductive Run (step : σ → α → Except ε σ) (guard : σ → α → Prop) : σ → List α → σ → Prop
  | nil (s : σ) : Run step guard s [] s
  | cons {s t u : σ} {a : α} {as : List α} (met : guard s a) (returned : step s a = .ok t)
      (rest : Run step guard t as u) : Run step guard s (a :: as) u

variable {step : σ → α → Except ε σ} {guard : σ → α → Prop}

/-- What every guarded step preserves holds at the end of a run. -/
theorem Run.invariant (inv : σ → Prop)
    (preserved : ∀ s a t, inv s → guard s a → step s a = .ok t → inv t)
    {s t : σ} {as : List α} (run : Run step guard s as t) (initial : inv s) : inv t := by
  induction run with
  | nil => exact initial
  | cons met returned _ ih => exact ih (preserved _ _ _ initial met returned)

theorem Run.append {s t u : σ} {as bs : List α} (first : Run step guard s as t) (second : Run step guard t bs u) :
    Run step guard s (as ++ bs) u := by
  induction first with
  | nil => exact second
  | cons met returned _ ih => exact .cons met returned (ih second)

theorem Run.split {s u : σ} {as bs : List α} (run : Run step guard s (as ++ bs) u) :
    ∃ t, Run step guard s as t ∧ Run step guard t bs u := by
  induction as generalizing s with
  | nil => exact ⟨s, .nil s, run⟩
  | cons a as ih =>
    obtain _ | ⟨met, returned, rest⟩ := run
    obtain ⟨t, first, second⟩ := ih rest
    exact ⟨t, .cons met returned first, second⟩

/- A step with a ghost: something that the step does not read and that is told what it did. -/
def withGhost {γ : Type} (step : σ → α → Except ε σ) (tell : σ → α → σ → γ → γ) (s : σ × γ) (a : α) :
    Except ε (σ × γ) :=
  (step s.1 a).map fun t => (t, tell s.1 a t s.2)

/-- A ghost follows any run, and a run with a ghost is a run without it. -/
theorem Run.ghost {γ : Type} (tell : σ → α → σ → γ → γ) (g : γ) {s t : σ} {as : List α} (run : Run step guard s as t) :
    ∃ h, Run (withGhost step tell) (fun s => guard s.1) (s, g) as (t, h) := by
  induction run generalizing g with
  | nil s => exact ⟨g, .nil _⟩
  | cons met returned _ ih =>
    obtain ⟨h, rest⟩ := ih (tell _ _ _ g)
    refine ⟨h, .cons met ?_ rest⟩
    rw [withGhost, returned]
    rfl

theorem Run.ghostless {γ : Type} {tell : σ → α → σ → γ → γ} {s t : σ × γ} {as : List α}
    (run : Run (withGhost step tell) (fun s => guard s.1) s as t) : Run step guard s.1 as t.1 := by
  induction run with
  | nil s => exact .nil _
  | cons met returned _ ih =>
    obtain ⟨t, took, rfl⟩ := map_ok.mp returned
    exact .cons met took ih

/- A step that is taken only where a test of the guard succeeds. -/
def guarded (step : σ → α → Except ε σ) (ok : σ → α → Bool) (s : σ) (a : α) : Option σ :=
  if ok s a then (step s a).toOption else none

theorem run_of_foldlM {ok : σ → α → Bool} (met : ∀ s a, ok s a = true → guard s a) {s t : σ} {as : List α}
    (done : as.foldlM (guarded step ok) s = some t) : Run step guard s as t := by
  induction as generalizing s with
  | nil => exact Option.some.inj done ▸ .nil s
  | cons a as ih =>
    obtain ⟨u, first, rest⟩ := Option.bind_eq_some_iff.mp done
    unfold guarded at first
    split at first
    · rename_i tested
      cases returned : step s a with
      | error e =>
        rw [returned] at first
        cases first
      | ok v =>
        rw [returned] at first
        cases Option.some.inj first
        exact .cons (met s a tested) returned (ih rest)
    · cases first

/-- A run found by evaluating it, with a test of the state it ends in. -/
theorem run_of_check (step : σ → α → Except ε σ) (guard : σ → α → Prop) (ok : σ → α → Bool) (s : σ)
    (as : List α) (test : σ → Bool) (met : ∀ s a, ok s a = true → guard s a)
    (check : (match as.foldlM (guarded step ok) s with | some t => test t | none => false) = true) :
    ∃ t, Run step guard s as t ∧ test t = true := by
  cases done : as.foldlM (guarded step ok) s with
  | none =>
    rw [done] at check
    cases check
  | some t =>
    rw [done] at check
    exact ⟨t, run_of_foldlM met done, check⟩

/-- What every turn of a loop preserves holds when the loop has ended. -/
theorem foldlM_some {f : σ → α → Option σ} {inv : σ → Prop} (step : ∀ s a t, inv s → f s a = some t → inv t)
    {as : List α} {s t : σ} (start : inv s) (done : as.foldlM f s = some t) : inv t := by
  induction as generalizing s with
  | nil => exact Option.some.inj done ▸ start
  | cons a as ih =>
    obtain ⟨m, first, rest⟩ := Option.bind_eq_some_iff.mp done
    exact ih (step s a m start first) rest

/-- A loop over start, .., start + n - 1 that cannot fail while its invariant holds. -/
theorem foldlM_interval {f : σ → Nat → Option σ} (inv : Nat → σ → Prop) (start n : Nat)
    (step : ∀ i s, start ≤ i → i < start + n → inv i s → ∃ t, f s i = some t ∧ inv (i + 1) t)
    {s : σ} (initial : inv start s) :
    ∃ t, (List.range' start n).foldlM f s = some t ∧ inv (start + n) t := by
  induction n with
  | zero => exact ⟨s, rfl, initial⟩
  | succ n ih =>
    obtain ⟨t, done, reached⟩ := ih (fun i s low high => step i s low (Nat.lt_succ_of_lt high))
    obtain ⟨u, last, final⟩ := step (start + n) t (Nat.le_add_right _ _) (Nat.lt_succ_self _) reached
    refine ⟨u, ?_, final⟩
    rw [List.range'_1_concat, List.foldlM_append, done]
    simp [last]

theorem foldlM_range {f : σ → Nat → Option σ} (inv : Nat → σ → Prop) {n : Nat}
    (step : ∀ i s, i < n → inv i s → ∃ t, f s i = some t ∧ inv (i + 1) t)
    {s : σ} (initial : inv 0 s) : ∃ t, (List.range n).foldlM f s = some t ∧ inv n t := by
  have loop := foldlM_interval inv 0 n (fun i s _ high => step i s (Nat.zero_add n ▸ high)) initial
  rwa [← List.range_eq_range', Nat.zero_add] at loop

/-- A search loop over 0, .., n - 1 returns at the first index with a result. -/
theorem findSome_range_eq_some {β : Type} {f : Nat → Option β} {n : Nat} {b : β} :
    (List.range n).findSome? f = some b ↔ ∃ i < n, f i = some b ∧ ∀ j < i, f j = none := by
  induction n with
  | zero => simp
  | succ n ih =>
    rw [List.range_succ, List.findSome?_append, Option.or_eq_some_iff, ih]
    constructor
    · rintro (⟨i, hi, found, before⟩ | ⟨none, last⟩)
      · exact ⟨i, Nat.lt_succ_of_lt hi, found, before⟩
      · refine ⟨n, Nat.lt_succ_self n, by simpa using last, fun j hj => ?_⟩
        exact List.findSome?_eq_none_iff.mp none j (List.mem_range.mpr hj)
    · rintro ⟨i, hi, found, before⟩
      rcases Nat.lt_succ_iff_lt_or_eq.mp hi with lt | rfl
      · exact Or.inl ⟨i, lt, found, before⟩
      · exact Or.inr ⟨List.findSome?_eq_none_iff.mpr fun j hj => before j (List.mem_range.mp hj),
          by simpa using found⟩

/-- The first candidate of a search loop, and what is left when it is taken out. -/
theorem filter_range_least {p q : Nat → Bool} {n a : Nat} (inside : a < n) (found : p a = true)
    (least : ∀ b < a, p b = false) (rest : ∀ b, q b = (b != a && p b)) :
    (List.range n).filter p = a :: (List.range n).filter q := by
  have first : ((List.range n).filter p).head? = some a := by
    rw [List.head?_filter, List.find?_range_eq_some]
    exact ⟨found, List.mem_range.mpr inside, fun b lt => by simp [least b lt]⟩
  obtain ⟨others, split⟩ := List.head?_eq_some_iff.mp first
  have nodup : ((List.range n).filter p).Nodup := List.nodup_range.filter p
  have left := nodup.erase_eq_filter a
  rw [split, List.erase_cons_head, ← split, List.filter_filter] at left
  rw [split, left]
  congr 2
  funext b
  exact (rest b).symm

end Runs
