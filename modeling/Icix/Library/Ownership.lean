import Mathlib.Logic.Function.Basic

/-! Numbered resources held by slots. A table says which resource a slot holds;
a separate record of the resources in use has to agree with it. Nothing here
fixes what a slot or a resource is. -/
namespace Ownership

variable {σ ρ : Type}

/-- No resource is held by two slots. -/
def Exclusive (ref : σ → Option ρ) : Prop :=
  ∀ i j r, ref i = some r → ref j = some r → i = j

/-- Every held resource is recorded as used. -/
def Covered (ref : σ → Option ρ) (used : ρ → Prop) : Prop :=
  ∀ i r, ref i = some r → used r

/-- The record holds exactly the held resources. -/
def Exact (ref : σ → Option ρ) (used : ρ → Prop) : Prop :=
  ∀ r, used r ↔ ∃ i, ref i = some r

theorem Exact.covered {ref : σ → Option ρ} {used : ρ → Prop} (exact : Exact ref used) :
    Covered ref used :=
  fun i r held => (exact r).mpr ⟨i, held⟩

theorem Covered.mono {ref : σ → Option ρ} {used used' : ρ → Prop} (covered : Covered ref used)
    (grows : ∀ r, used r → used' r) : Covered ref used' :=
  fun i r held => grows r (covered i r held)

/-- A table that holds no more than another. -/
def Sub (ref' ref : σ → Option ρ) : Prop := ∀ i r, ref' i = some r → ref i = some r

theorem Exclusive.sub {ref ref' : σ → Option ρ} (exclusive : Exclusive ref) (sub : Sub ref' ref) :
    Exclusive ref' :=
  fun i j r hi hj => exclusive i j r (sub i r hi) (sub j r hj)

/-- Releasing resources nobody holds any more keeps the rest covered. -/
theorem Covered.release {ref ref' : σ → Option ρ} {used used' : ρ → Prop}
    (covered : Covered ref used) (sub : Sub ref' ref)
    (kept : ∀ r, used r → ¬ used' r → ∀ i, ref' i ≠ some r) : Covered ref' used' := by
  intro i r held
  by_contra released
  exact kept r (covered i r (sub i r held)) released i held

/-- A release that lets the slots in gone go and clears the marks in cleared keeps the record
exact exactly when the marks it clears are those of what these slots held. -/
theorem Exact.release_iff {ref ref' : σ → Option ρ} {used used' cleared : ρ → Prop} {gone : σ → Prop}
    (exact : Exact ref used) (exclusive : Exclusive ref)
    (left : ∀ i r, ref' i = some r ↔ ref i = some r ∧ ¬ gone i) (marks : ∀ r, used' r ↔ used r ∧ ¬ cleared r) :
    Exact ref' used' ↔ ∀ r, used r → (cleared r ↔ ∃ i, gone i ∧ ref i = some r) := by
  constructor
  · intro exact' r marked
    constructor
    · intro clear
      obtain ⟨i, held⟩ := (exact r).mp marked
      by_contra none
      have kept := (left i r).mpr ⟨held, fun going => none ⟨i, going, held⟩⟩
      exact ((marks r).mp ((exact' r).mpr ⟨i, kept⟩)).2 clear
    · rintro ⟨i, going, held⟩
      by_contra still
      obtain ⟨j, kept⟩ := (exact' r).mp ((marks r).mpr ⟨marked, still⟩)
      obtain ⟨holds, stays⟩ := (left j r).mp kept
      exact stays (exclusive j i r holds held ▸ going)
  · intro pairs r
    constructor
    · intro marked
      obtain ⟨old, kept⟩ := (marks r).mp marked
      obtain ⟨i, held⟩ := (exact r).mp old
      exact ⟨i, (left i r).mpr ⟨held, fun going => kept ((pairs r old).mpr ⟨i, going, held⟩)⟩⟩
    · rintro ⟨i, kept⟩
      obtain ⟨held, stays⟩ := (left i r).mp kept
      have old := (exact r).mpr ⟨i, held⟩
      refine (marks r).mpr ⟨old, fun clear => ?_⟩
      obtain ⟨j, going, holds⟩ := (pairs r old).mp clear
      exact stays (exclusive j i r holds held ▸ going)

/-- Numbers from base on that have to contain their own offsets: there are none. -/
theorem none_of_offsets {base : Nat} (positive : 0 < base) {s : Nat → Prop} (above : ∀ d, s d → base ≤ d)
    (closed : ∀ k, s (base + k) → s k) (d : Nat) : ¬ s d := by
  induction d using Nat.strongRecOn with
  | ind d ih =>
    intro member
    obtain ⟨k, rfl⟩ := Nat.exists_eq_add_of_le (above d member)
    exact ih k (by omega) (closed k member)

section Assign

variable [DecidableEq σ]

/- An allocation: slot i now holds r, the other slots are as before. -/
def assign (ref : σ → Option ρ) (i : σ) (r : ρ) : σ → Option ρ := Function.update ref i (some r)

theorem assign_held {ref : σ → Option ρ} {i j : σ} {r s : ρ} (held : assign ref i r j = some s) :
    (j = i ∧ s = r) ∨ (j ≠ i ∧ ref j = some s) := by
  by_cases same : j = i
  · subst j
    rw [assign, Function.update_self] at held
    exact Or.inl ⟨rfl, (Option.some.inj held).symm⟩
  · rw [assign, Function.update_of_ne same] at held
    exact Or.inr ⟨same, held⟩

/-- Allocating a resource that is not used keeps the table exclusive. -/
theorem Exclusive.assign {ref : σ → Option ρ} {used : ρ → Prop} (exclusive : Exclusive ref)
    (covered : Covered ref used) (i : σ) {r : ρ} (fresh : ¬ used r) :
    Exclusive (assign ref i r) := by
  intro j k s hj hk
  rcases assign_held hj with ⟨hji, hjs⟩ | ⟨_, oldj⟩
  · rcases assign_held hk with ⟨hki, _⟩ | ⟨_, oldk⟩
    · exact hji.trans hki.symm
    · exact absurd (covered k s oldk) (hjs ▸ fresh)
  · rcases assign_held hk with ⟨_, hks⟩ | ⟨_, oldk⟩
    · exact absurd (covered j s oldj) (hks ▸ fresh)
    · exact exclusive j k s oldj oldk

theorem Covered.assign {ref : σ → Option ρ} {used used' : ρ → Prop} (covered : Covered ref used)
    (i : σ) {r : ρ} (marks : ∀ s, used' s ↔ s = r ∨ used s) : Covered (assign ref i r) used' := by
  intro j s held
  rcases assign_held held with ⟨_, rfl⟩ | ⟨_, held⟩
  · exact (marks s).mpr (Or.inl rfl)
  · exact (marks s).mpr (Or.inr (covered j s held))

/-- Allocating into an empty slot keeps the record exact. -/
theorem Exact.assign {ref : σ → Option ρ} {used used' : ρ → Prop} (exact : Exact ref used)
    {i : σ} (empty : ref i = none) {r : ρ} (marks : ∀ s, used' s ↔ s = r ∨ used s) :
    Exact (assign ref i r) used' := by
  intro s
  constructor
  · intro marked
    rcases (marks s).mp marked with rfl | old
    · exact ⟨i, Function.update_self ..⟩
    · obtain ⟨j, held⟩ := (exact s).mp old
      have other : j ≠ i := by
        rintro rfl
        rw [empty] at held
        cases held
      exact ⟨j, (Function.update_of_ne other ..).trans held⟩
  · rintro ⟨j, held⟩
    exact (exact.covered.assign i marks) j s held

/- A release: slot i holds nothing, the other slots are as before. -/
def drop (ref : σ → Option ρ) (i : σ) : σ → Option ρ := Function.update ref i none

theorem drop_held {ref : σ → Option ρ} {i j : σ} {s : ρ} (held : drop ref i j = some s) :
    j ≠ i ∧ ref j = some s := by
  by_cases same : j = i
  · subst j
    rw [drop, Function.update_self] at held
    cases held
  · rw [drop, Function.update_of_ne same] at held
    exact ⟨same, held⟩

theorem drop_sub (ref : σ → Option ρ) (i : σ) : Sub (drop ref i) ref :=
  fun _ _ held => (drop_held held).2

/-- Nobody holds a resource after its only holder has released it. -/
theorem Exclusive.dropped {ref : σ → Option ρ} (exclusive : Exclusive ref) {i : σ} {r : ρ}
    (held : ref i = some r) (j : σ) : drop ref i j ≠ some r :=
  fun still => (drop_held still).1 (exclusive j i r (drop_held still).2 held)

/-- Releasing a resource and its mark together keeps the record exact. -/
theorem Exact.drop {ref : σ → Option ρ} {used used' : ρ → Prop} (exact : Exact ref used)
    (exclusive : Exclusive ref) {i : σ} {r : ρ} (held : ref i = some r)
    (marks : ∀ s, used' s ↔ s ≠ r ∧ used s) : Exact (drop ref i) used' := by
  intro s
  constructor
  · intro marked
    obtain ⟨other, old⟩ := (marks s).mp marked
    obtain ⟨j, holds⟩ := (exact s).mp old
    have kept : j ≠ i := by
      rintro rfl
      exact other (Option.some.inj (holds.symm.trans held))
    exact ⟨j, (Function.update_of_ne kept ..).trans holds⟩
  · rintro ⟨j, holds⟩
    refine (marks s).mpr ⟨?_, (exact s).mpr ⟨j, (drop_held holds).2⟩⟩
    rintro rfl
    exact exclusive.dropped held j holds

end Assign

end Ownership
