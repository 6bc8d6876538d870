import Icix.Library.Bytes

/-! An array of items of one size in a memory, with contents for some of them that have yet
to be stored: the memory once they are. -/
namespace Bytes

/-- Memory m after every pending item of the array at base has been stored. -/
noncomputable def overlay (base size : Nat) (pending : Nat → Prop) (item : Nat → Nat → Byte) (m : Nat → Byte) :
    Nat → Byte :=
  open Classical in
  fun x => if base ≤ x ∧ pending ((x - base) / size) then item ((x - base) / size) ((x - base) % size) else m x

section Overlay

variable {base size : Nat} {pending pending' : Nat → Prop} {item item' : Nat → Nat → Byte} {m : Nat → Byte}

theorem overlay_below {x : Nat} (below : x < base) : overlay base size pending item m x = m x :=
  if_neg fun inside => Nat.not_le_of_lt below inside.1

theorem item_index {i k : Nat} (inside : k < size) :
    (base + i * size + k - base) / size = i ∧ (base + i * size + k - base) % size = k := by
  have offset : base + i * size + k - base = k + i * size := by omega
  constructor
  · rw [offset, Nat.add_mul_div_right _ _ (Nat.zero_lt_of_lt inside), Nat.div_eq_of_lt inside, Nat.zero_add]
  · rw [offset, Nat.add_mul_mod_self_right, Nat.mod_eq_of_lt inside]

theorem overlay_pending {i k : Nat} (inside : k < size) (stale : pending i) :
    overlay base size pending item m (base + i * size + k) = item i k := by
  obtain ⟨div, rem⟩ : (base + i * size + k - base) / size = i ∧ _ := item_index inside
  have first : base ≤ base + i * size + k := by omega
  unfold overlay
  rw [if_pos ⟨first, div.symm ▸ stale⟩, div, rem]

theorem overlay_stored {i k : Nat} (inside : k < size) (stored : ¬ pending i) :
    overlay base size pending item m (base + i * size + k) = m (base + i * size + k) := by
  obtain ⟨div, -⟩ : (base + i * size + k - base) / size = i ∧ _ := item_index inside
  exact if_neg fun stale => stored (div ▸ stale.2)

/-- An address before the array, or in one of its items. -/
theorem below_or_item (positive : 0 < size) (base x : Nat) :
    x < base ∨ ∃ i k, k < size ∧ x = base + i * size + k := by
  by_cases below : x < base
  · exact Or.inl below
  · refine Or.inr ⟨(x - base) / size, (x - base) % size, Nat.mod_lt _ positive, ?_⟩
    have parts := Nat.div_add_mod' (x - base) size
    omega

theorem item_apart {i j k : Nat} (inside : k < size) (other : j ≠ i) :
    base + j * size + k < base + i * size ∨ base + i * size + size ≤ base + j * size + k := by
  rcases Nat.lt_or_gt_of_ne other with lt | gt
  · have le := Nat.mul_le_mul_right size (Nat.succ_le_of_lt lt)
    rw [Nat.succ_mul] at le
    omega
  · have le := Nat.mul_le_mul_right size (Nat.succ_le_of_lt gt)
    rw [Nat.succ_mul] at le
    omega

variable (positive : 0 < size)
include positive

theorem overlay_self (stored : ∀ i k, pending i → k < size → m (base + i * size + k) = item i k) :
    overlay base size pending item m = m := by
  funext x
  rcases below_or_item positive base x with below | ⟨i, k, inside, rfl⟩
  · exact overlay_below below
  · by_cases stale : pending i
    · rw [overlay_pending inside stale, stored i k stale inside]
    · exact overlay_stored inside stale

/-- What is stored apart from the pending items may be stored before or after them. -/
theorem overlay_blit {a n : Nat} {src : Nat → Byte}
    (apart : ∀ i k, pending i → k < size → base + i * size + k < a ∨ a + n ≤ base + i * size + k) :
    overlay base size pending item (blit m a n src) = blit (overlay base size pending item m) a n src := by
  funext x
  unfold blit
  by_cases hit : a ≤ x ∧ x < a + n
  · rw [if_pos hit]
    rcases below_or_item positive base x with below | ⟨i, k, inside, rfl⟩
    · rw [overlay_below below, if_pos hit]
    · have stored : ¬ pending i := by
        intro stale
        have away := apart i k stale inside
        omega
      rw [overlay_stored inside stored, if_pos hit]
  · rw [if_neg hit]
    rcases below_or_item positive base x with below | ⟨i, k, inside, rfl⟩
    · rw [overlay_below below, overlay_below below, if_neg hit]
    · by_cases stale : pending i
      · rw [overlay_pending inside stale, overlay_pending inside stale]
      · rw [overlay_stored inside stale, overlay_stored inside stale, if_neg hit]

/-- An item that becomes pending, or whose contents change while it is, is stored last. -/
theorem overlay_add {i : Nat} (grows : ∀ j, pending' j ↔ j = i ∨ pending j) (same : ∀ j, j ≠ i → item' j = item j) :
    overlay base size pending' item' m = blit (overlay base size pending item m) (base + i * size) size (item' i) := by
  funext x
  rcases below_or_item positive base x with below | ⟨j, k, inside, rfl⟩
  · rw [overlay_below below, blit_outside _ _ (by omega), overlay_below below]
  · by_cases this : j = i
    · subst j
      rw [overlay_pending inside ((grows i).mpr (Or.inl rfl)), blit_inside _ _ inside]
    · rw [blit_outside _ _ (item_apart inside this)]
      by_cases stale : pending j
      · rw [overlay_pending inside ((grows j).mpr (Or.inr stale)), overlay_pending inside stale, same j this]
      · have stored : ¬ pending' j := fun stale' => ((grows j).mp stale').elim this stale
        rw [overlay_stored inside stored, overlay_stored inside stale]

/-- Storing one pending item changes nothing, whether or not it is pending afterwards. -/
theorem overlay_flush {i : Nat} (stale : pending i) (others : ∀ j, j ≠ i → (pending' j ↔ pending j)) :
    overlay base size pending' item (blit m (base + i * size) size (item i)) = overlay base size pending item m := by
  funext x
  rcases below_or_item positive base x with below | ⟨j, k, inside, rfl⟩
  · rw [overlay_below below, overlay_below below, blit_outside _ _ (by omega)]
  · by_cases this : j = i
    · subst j
      rw [overlay_pending inside stale]
      by_cases again : pending' i
      · exact overlay_pending inside again
      · rw [overlay_stored inside again, blit_inside _ _ inside]
    · by_cases stale' : pending j
      · rw [overlay_pending inside ((others j this).mpr stale'), overlay_pending inside stale']
      · rw [overlay_stored inside (mt (others j this).mp stale'), overlay_stored inside stale',
          blit_outside _ _ (item_apart inside this)]

end Overlay

end Bytes
