import Mathlib.Logic.Function.Basic
import Mathlib.Data.List.Basic

/-! Copies inside one memory, element by element in a given order of the indices. The
ranges that are read and written may share addresses. -/
namespace Copies

variable {α β : Type} [DecidableEq α] (d s : Nat → α)

/-- The assignments m[d i] = m[s i], for the indices in their order. -/
def copyEach : List Nat → (α → β) → α → β
  | [], m => m
  | i :: is, m => copyEach is (Function.update m (d i) (m (s i)))

/-- What is copied from has not been overwritten by an earlier assignment, and nothing is
assigned twice. -/
def InOrder (is : List Nat) : Prop := is.Pairwise fun i j => d i ≠ s j ∧ d i ≠ d j

variable {d s}

theorem copyEach_outside {is : List Nat} (m : α → β) {a : α} (outside : ∀ i ∈ is, a ≠ d i) :
    copyEach d s is m a = m a := by
  induction is generalizing m with
  | nil => rfl
  | cons i is ih =>
    rw [copyEach, ih _ (fun j later => outside j (List.mem_cons_of_mem i later))]
    exact Function.update_of_ne (outside i List.mem_cons_self) ..

theorem copyEach_inside {is : List Nat} (order : InOrder d s is) (m : α → β) {i : Nat} (mem : i ∈ is) :
    copyEach d s is m (d i) = m (s i) := by
  induction is generalizing m with
  | nil => cases mem
  | cons j is ih =>
    obtain ⟨first, rest⟩ := List.pairwise_cons.mp order
    rw [copyEach]
    cases List.mem_cons.mp mem with
    | inl same =>
      rw [same, copyEach_outside _ (fun k later => (first k later).2), Function.update_self]
    | inr later =>
      rw [ih rest _ later]
      exact Function.update_of_ne (first i later).1.symm ..

/- Upwards, and downwards. -/
omit [DecidableEq α] in
theorem inOrder_range {n : Nat} (apart : ∀ i j, i < j → j < n → d i ≠ s j ∧ d i ≠ d j) :
    InOrder d s (List.range n) :=
  List.pairwise_lt_range.imp_of_mem fun _ mem less => apart _ _ less (List.mem_range.mp mem)

omit [DecidableEq α] in
theorem inOrder_reverse {n : Nat} (apart : ∀ i j, j < i → i < n → d i ≠ s j ∧ d i ≠ d j) :
    InOrder d s (List.range n).reverse :=
  List.pairwise_reverse.mpr
    (List.pairwise_lt_range.imp_of_mem fun _ mem less => apart _ _ less (List.mem_range.mp mem))

end Copies
