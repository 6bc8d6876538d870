import Mathlib.Logic.Relation
import Mathlib.Data.Fintype.Card
import Mathlib.Data.Set.Finite.Basic

/-! Relations without cycles: how one grows by a new leaf, and that from a node of which
only finitely many others are reached no path goes on for ever. -/
namespace Cycles
open Relation

variable {α : Type} {r below : α → α → Prop}

def Acyclic (r : α → α → Prop) : Prop := ∀ a, ¬ TransGen r a a

/-- An edge to a node without edges of its own closes no cycle. -/
theorem Acyclic.insert (acyclic : Acyclic r) {a b : α} (leaf : ∀ c, ¬ r b c) (apart : a ≠ b) :
    Acyclic (fun x y => r x y ∨ x = a ∧ y = b) := by
  have last : ∀ x y, TransGen (fun x y => r x y ∨ x = a ∧ y = b) x y → TransGen r x y ∨ y = b := by
    intro x y path
    induction path with
    | single edge =>
      rcases edge with old | ⟨_, new⟩
      · exact .inl (.single old)
      · exact .inr new
    | tail _ edge ih =>
      rcases edge with old | ⟨_, new⟩
      · rcases ih with path | rfl
        · exact .inl (path.tail old)
        · exact absurd old (leaf _)
      · exact .inr new
  intro x cycle
  rcases last x x cycle with path | rfl
  · exact acyclic x path
  · obtain ⟨c, edge, _⟩ := TransGen.head'_iff.mp cycle
    rcases edge with old | ⟨same, _⟩
    · exact leaf c old
    · exact apart same.symm

section Reached

variable {a : α}

/-- Where every path ends there is no cycle. -/
theorem not_cycle_of_acc (ends : Acc (fun y x => r x y) a) : ¬ TransGen r a a := by
  induction ends with
  | intro x _ ih =>
    intro cycle
    obtain ⟨y, edge, back⟩ := TransGen.head'_iff.mp cycle
    exact ih y edge (TransGen.tail' back edge)

theorem acc_reached (ends : Acc (fun y x => r x y) a) {b : α} (path : ReflTransGen r a b) :
    Acc (fun y x => r x y) b := by
  induction path with
  | refl => exact ends
  | tail _ edge ih => exact ih.inv edge

/-- Without a cycle in reach every path ends, when finitely many nodes in reach have edges. -/
theorem acc_of_finite (finite : {b | ReflTransGen r a b ∧ ∃ c, r b c}.Finite)
    (acyclic : ∀ b, ReflTransGen r a b → ¬ TransGen r b b) : Acc (fun y x => r x y) a := by
  have nodes : Finite {b | ReflTransGen r a b ∧ ∃ c, r b c} := finite
  let after (y x : {b | ReflTransGen r a b ∧ ∃ c, r b c}) : Prop := TransGen r x.1 y.1
  have trans : IsTrans _ after := ⟨fun _ _ _ first second => second.trans first⟩
  have irrefl : Std.Irrefl after := ⟨fun x cycle => acyclic x.1 x.2.1 cycle⟩
  have founded : WellFounded after := Finite.wellFounded_of_trans_of_irrefl after
  have inner : ∀ x, Acc (fun y x => r x y) (x : {b | ReflTransGen r a b ∧ ∃ c, r b c}).1 := by
    intro x
    induction x using founded.induction with
    | _ x ih =>
      refine .intro _ (fun y edge => ?_)
      by_cases more : ∃ c, r y c
      · exact ih ⟨y, x.2.1.tail edge, more⟩ (.single edge)
      · exact .intro _ (fun z next => absurd ⟨z, next⟩ more)
  by_cases more : ∃ c, r a c
  · exact inner ⟨a, .refl, more⟩
  · exact .intro _ (fun z next => absurd ⟨z, next⟩ more)

/-- A cycle in reach goes through one of the nodes whose edges are not those of an acyclic relation. -/
theorem cycle_free {inner : α → Prop} (acyclic : Acyclic below)
    (follows : ∀ x y, ReflTransGen r a x → inner x → r x y → below x y)
    (others : ∀ x, ReflTransGen r a x → ¬ inner x → ¬ TransGen r x x) {b : α} (reached : ReflTransGen r a b) :
    ¬ TransGen r b b := by
  intro cycle
  have on_cycle : ∀ x, ReflTransGen r b x → TransGen r x b → inner x := by
    intro x forth back
    by_contra outside
    exact others x (reached.trans forth) outside (back.trans_left forth)
  have path : ∀ y, TransGen r b y → ReflTransGen r y b → TransGen below b y := by
    intro y forth
    induction forth with
    | single edge =>
      intro _
      exact .single (follows b _ reached (on_cycle b .refl cycle) edge)
    | @tail x y forth edge ih =>
      intro back
      have home : TransGen r x b := .head' edge back
      have here := on_cycle x forth.to_reflTransGen home
      exact (ih home.to_reflTransGen).tail (follows x y (reached.trans forth.to_reflTransGen) here edge)
  exact acyclic b (path b cycle .refl)

end Reached

end Cycles
