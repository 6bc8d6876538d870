import Mathlib.Data.Set.Insert

/-! What is known of a memory some of whose cells are missing: for each cell the values it may
hold. A store leaves one value, a store that may not have reached the cell adds one, and of a
cell that has been given up nothing is known. -/
namespace Cells

abbrev Known (ι β : Type) := ι → Set β

namespace Known

variable {ι β : Type}

def nothing : Known ι β := fun _ => Set.univ

open Classical in
noncomputable def store (p : Known ι β) (on : Set ι) (v : ι → β) : Known ι β :=
  fun i => if i ∈ on then {v i} else p i

open Classical in
noncomputable def mayStore (p : Known ι β) (on : Set ι) (v : ι → β) : Known ι β :=
  fun i => if i ∈ on then insert (v i) (p i) else p i

open Classical in
noncomputable def forget (p : Known ι β) (on : Set ι) : Known ι β :=
  fun i => if i ∈ on then Set.univ else p i

end Known

/-- Every cell of which something is known is there, and holds a value that it may hold. -/
def Agrees {ι β : Type} (m : ι → Option β) (p : Known ι β) : Prop :=
  ∀ i, p i = Set.univ ∨ ∃ v ∈ p i, m i = some v

section Memory

variable {ι β : Type} {m m' : ι → Option β} {p : Known ι β} {on : Set ι} {v : ι → β}

theorem agrees_nothing (m : ι → Option β) : Agrees m .nothing := fun _ => .inl rfl

namespace Agrees

/-- What a cell holds is among the values it may hold. -/
theorem mem (agrees : Agrees m p) {i : ι} {x : β} (held : m i = some x) : x ∈ p i := by
  rcases agrees i with all | ⟨y, may, there⟩
  · exact all ▸ Set.mem_univ x
  · exact Option.some.inj (held.symm.trans there) ▸ may

theorem isSome (agrees : Agrees m p) {i : ι} (known : p i ≠ Set.univ) : ∃ x, m i = some x := by
  obtain ⟨x, -, there⟩ := (agrees i).resolve_left known
  exact ⟨x, there⟩

theorem forget (agrees : Agrees m p) (keep : ∀ i, i ∉ on → ∀ x, m i = some x → m' i = some x) :
    Agrees m' (p.forget on) := by
  intro i
  by_cases gone : i ∈ on
  · exact .inl (if_pos gone)
  · have same : p.forget on i = p i := if_neg gone
    rw [same]
    exact (agrees i).imp_right fun ⟨x, may, there⟩ => ⟨x, may, keep i gone x there⟩

theorem keep (agrees : Agrees m p) (keep : ∀ i x, m i = some x → m' i = some x) : Agrees m' p :=
  fun i => (agrees i).imp_right fun ⟨x, may, there⟩ => ⟨x, may, keep i x there⟩

theorem store (agrees : Agrees m p) (stored : ∀ i ∈ on, m' i = some (v i))
    (keep : ∀ i, i ∉ on → ∀ x, m i = some x → m' i = some x) : Agrees m' (p.store on v) := by
  intro i
  by_cases hit : i ∈ on
  · have one : p.store on v i = {v i} := if_pos hit
    exact .inr ⟨v i, one ▸ Set.mem_singleton _, stored i hit⟩
  · have same : p.store on v i = p i := if_neg hit
    rw [same]
    exact (agrees i).imp_right fun ⟨x, may, there⟩ => ⟨x, may, keep i hit x there⟩

theorem mayStore (agrees : Agrees m p)
    (either : ∀ i ∈ on, ∀ x, m i = some x → m' i = some x ∨ m' i = some (v i))
    (keep : ∀ i, i ∉ on → ∀ x, m i = some x → m' i = some x) : Agrees m' (p.mayStore on v) := by
  intro i
  by_cases hit : i ∈ on
  · have more : p.mayStore on v i = insert (v i) (p i) := if_pos hit
    rw [more]
    rcases agrees i with all | ⟨x, may, there⟩
    · exact .inl (by rw [all, Set.insert_eq_of_mem (Set.mem_univ _)])
    · rcases either i hit x there with old | new
      · exact .inr ⟨x, Set.mem_insert_of_mem _ may, old⟩
      · exact .inr ⟨v i, Set.mem_insert _ _, new⟩
  · have same : p.mayStore on v i = p i := if_neg hit
    rw [same]
    exact (agrees i).imp_right fun ⟨x, may, there⟩ => ⟨x, may, keep i hit x there⟩

end Agrees

end Memory

end Cells
