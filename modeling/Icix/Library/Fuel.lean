import Icix.Library.Runs

/-! Computations by fuel. With too little of it they stop short. One that ends has the same
result with all fuel from some amount on. -/
namespace Fuel
open Runs

variable {ε α β γ : Type}

/-- Why there is no result: the fuel has run out, or there is a fault. -/
inductive Stop (ε : Type) where
  | fuel
  | fault (e : ε)
  deriving DecidableEq, Repr

abbrev Timed (ε α : Type) := Except (Stop ε) α

/- A step that takes no fuel. -/
def once : Except ε α → Timed ε α
  | .ok a => .ok a
  | .error e => .error (.fault e)

theorem once_ok {x : Except ε α} {a : α} : once x = .ok a ↔ x = .ok a := by
  cases x <;> simp [once]

@[simp] theorem once_ok_bind (a : α) (f : α → Timed ε β) : (once (.ok a) >>= f) = f a := rfl

@[simp] theorem once_error_bind (e : ε) (f : α → Timed ε β) :
    (once (.error e : Except ε α) >>= f) = .error (.fault e) := rfl

/-- From some amount of fuel on, x is the result. -/
def Settles (f : Nat → Timed ε α) (x : Timed ε α) : Prop := ∃ least, ∀ fuel, least ≤ fuel → f fuel = x

/-- From some amount of fuel on there is a result or a fault, and always the same one. -/
def Ends (f : Nat → Timed ε α) : Prop := ∃ x, x ≠ .error .fuel ∧ Settles f x

def Faultless (x : Timed ε α) : Prop := ∀ e, x ≠ .error (.fault e)

theorem ends_const {x : Timed ε α} (ended : x ≠ .error .fuel) : Ends (fun _ => x) := ⟨x, ended, 0, fun _ _ => rfl⟩

theorem ends_ok (a : α) : Ends (fun _ => (.ok a : Timed ε α)) := ends_const nofun

theorem ends_once (x : Except ε α) : Ends (fun _ => once x) := by
  cases x with
  | ok a => exact ends_ok a
  | error e => exact ends_const nofun

/-- The first unit of fuel pays for a step that has been taken. -/
theorem Ends.later {f : Nat → Timed ε α} (ends : Ends fun fuel => f (fuel + 1)) : Ends f := by
  obtain ⟨x, ended, least, same⟩ := ends
  refine ⟨x, ended, least + 1, fun fuel enough => ?_⟩
  obtain ⟨rest, rfl⟩ := Nat.exists_eq_succ_of_ne_zero (Nat.ne_of_gt (Nat.lt_of_lt_of_le (Nat.succ_pos least) enough))
  exact same rest (Nat.le_of_succ_le_succ enough)

theorem Ends.bind {f : Nat → Timed ε α} {g : α → Nat → Timed ε β} (first : Ends f)
    (rest : ∀ a, Settles f (.ok a) → Ends (g a)) : Ends (fun fuel => f fuel >>= fun a => g a fuel) := by
  obtain ⟨x, ended, least, same⟩ := first
  cases x with
  | error e =>
    refine ⟨.error e, fun none => ended (Except.error.inj none ▸ rfl), least, fun fuel enough => ?_⟩
    simp only [same fuel enough, error_bind]
  | ok a =>
    obtain ⟨y, endedY, leastY, sameY⟩ := rest a ⟨least, same⟩
    refine ⟨y, endedY, max least leastY, fun fuel enough => ?_⟩
    have both := Nat.max_le.mp enough
    simp only [same fuel both.1, ok_bind, sameY fuel both.2]

theorem ends_once_bind {x : Except ε α} {g : α → Nat → Timed ε β} (rest : ∀ a, x = .ok a → Ends (g a)) :
    Ends (fun fuel => once x >>= fun a => g a fuel) := by
  refine (ends_once x).bind (fun a settled => rest a ?_)
  obtain ⟨least, same⟩ := settled
  exact once_ok.mp (same least (Nat.le_refl least))

/-- What ends without a fault has a result. -/
theorem Ends.returns {f : Nat → Timed ε α} (ends : Ends f) (clean : ∀ fuel, Faultless (f fuel)) :
    ∃ fuel a, f fuel = .ok a := by
  obtain ⟨x, ended, least, same⟩ := ends
  have result := same least (Nat.le_refl least)
  cases x with
  | ok a => exact ⟨least, a, result⟩
  | error stop =>
    cases stop with
    | fuel => exact absurd rfl ended
    | fault e => exact absurd result (clean least e)

theorem faultless_ok (a : α) : Faultless (.ok a : Timed ε α) := fun _ => nofun

theorem faultless_fuel : Faultless (.error .fuel : Timed ε α) := fun _ => nofun

theorem Faultless.bind {x : Timed ε α} {f : α → Timed ε β} (first : Faultless x)
    (rest : ∀ a, x = .ok a → Faultless (f a)) : Faultless (x >>= f) := by
  cases x with
  | ok a => exact rest a rfl
  | error stop =>
    intro e failed
    exact first e (by rw [Except.error.inj failed])

section State

variable {σ : Type} {pre mid mid' post : σ → Prop}

/-- From some amount of fuel on f returns a in all the states that pre holds of, and then post does. -/
def Yields (pre post : σ → Prop) (f : Nat → σ → Timed ε (α × σ)) (a : α) : Prop :=
  ∃ least, ∀ fuel, least ≤ fuel → ∀ s, pre s → ∃ t, f fuel s = .ok (a, t) ∧ post t

theorem Yields.later {f : Nat → σ → Timed ε (α × σ)} {a : α} (yields : Yields pre post (fun fuel => f (fuel + 1)) a) :
    Yields pre post f a := by
  obtain ⟨least, result⟩ := yields
  refine ⟨least + 1, fun fuel enough s holds => ?_⟩
  obtain ⟨rest, rfl⟩ := Nat.exists_eq_succ_of_ne_zero (Nat.ne_of_gt (Nat.lt_of_lt_of_le (Nat.succ_pos least) enough))
  exact result rest (Nat.le_of_succ_le_succ enough) s holds

theorem yields_now {f : Nat → σ → Timed ε (α × σ)} {a : α}
    (result : ∀ s, pre s → ∃ t, post t ∧ ∀ fuel, f fuel s = .ok (a, t)) : Yields pre post f a := by
  refine ⟨0, fun fuel _ s holds => ?_⟩
  obtain ⟨t, next, same⟩ := result s holds
  exact ⟨t, same fuel, next⟩

/-- A step that takes no fuel, and then the rest. -/
theorem Yields.step {f : Nat → σ → Timed ε (β × σ)} {g : Nat → σ → Timed ε (α × σ)} {a : α} {b : β}
    (rest : Yields mid post g a)
    (first : ∀ s, pre s → ∃ t, mid t ∧ ∀ fuel w, g fuel t = .ok (a, w) → f fuel s = .ok (b, w)) : Yields pre post f b := by
  obtain ⟨least, result⟩ := rest
  refine ⟨least, fun fuel enough s holds => ?_⟩
  obtain ⟨t, next, same⟩ := first s holds
  obtain ⟨w, returned, last⟩ := result fuel enough t next
  exact ⟨w, same fuel w returned, last⟩

/-- A step that takes no fuel, and then two computations. -/
theorem Yields.both {f : Nat → σ → Timed ε (α × σ)} {g : Nat → σ → Timed ε (β × σ)} {h : Nat → σ → Timed ε (γ × σ)}
    {a : α} {b : β} {c : γ} (front : Yields mid mid' f a) (back : Yields mid' post g b)
    (first : ∀ s, pre s → ∃ s', mid s' ∧
      ∀ fuel t w, f fuel s' = .ok (a, t) → g fuel t = .ok (b, w) → h fuel s = .ok (c, w)) : Yields pre post h c := by
  obtain ⟨least, result⟩ := front
  obtain ⟨least', result'⟩ := back
  refine ⟨max least least', fun fuel enough s holds => ?_⟩
  have both := Nat.max_le.mp enough
  obtain ⟨s', start, join⟩ := first s holds
  obtain ⟨t, returned, next⟩ := result fuel both.1 s' start
  obtain ⟨w, returned', last⟩ := result' fuel both.2 t next
  exact ⟨w, join fuel t w returned returned', last⟩

end State

end Fuel
