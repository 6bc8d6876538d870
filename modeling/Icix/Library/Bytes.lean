import Mathlib.Logic.Function.Basic

/-! Byte memories as functions on addresses: block copies, 32-bit words stored
least significant byte first, arrays of words, and NUL-terminated strings. -/
namespace Bytes

abbrev Byte := BitVec 8
abbrev Word := BitVec 32

/-- Memory m after n bytes of src have been copied to address a. -/
def blit (m : Nat → Byte) (a n : Nat) (src : Nat → Byte) : Nat → Byte :=
  fun x => if a ≤ x ∧ x < a + n then src (x - a) else m x

theorem blit_inside (m src : Nat → Byte) {a n k : Nat} (inside : k < n) :
    blit m a n src (a + k) = src k := by
  have range : a ≤ a + k ∧ a + k < a + n := by omega
  simp only [blit, if_pos range, Nat.add_sub_cancel_left]

theorem blit_outside (m src : Nat → Byte) {a n x : Nat} (outside : x < a ∨ a + n ≤ x) :
    blit m a n src x = m x := by
  have range : ¬ (a ≤ x ∧ x < a + n) := by omega
  simp only [blit, if_neg range]

theorem blit_zero (m src : Nat → Byte) (a : Nat) : blit m a 0 src = m := by
  funext x
  exact blit_outside m src (Nat.lt_or_ge x a)

/- One more byte behind or before a copied block. -/
theorem blit_succ (m src : Nat → Byte) (a n : Nat) :
    blit m a (n + 1) src = Function.update (blit m a n src) (a + n) (src n) := by
  funext x
  by_cases last : x = a + n
  · rw [last, Function.update_self, blit_inside m src (Nat.lt_succ_self n)]
  · rw [Function.update_of_ne last]
    unfold blit
    congr 1
    apply propext
    omega

theorem blit_update_last (m src : Nat → Byte) (a n : Nat) :
    blit (Function.update m (a + n) (src n)) a n src = blit m a (n + 1) src := by
  funext x
  by_cases last : x = a + n
  · rw [last, blit_inside m src (Nat.lt_succ_self n), blit_outside _ _ (.inr (Nat.le_refl _)), Function.update_self]
  · simp only [blit, Function.update_of_ne last]
    congr 1
    apply propext
    omega

/- Blocks with the same bytes. -/
theorem blit_congr (m : Nat → Byte) {src src' : Nat → Byte} (a : Nat) {n : Nat} (same : ∀ k < n, src k = src' k) :
    blit m a n src = blit m a n src' := by
  funext x
  unfold blit
  split
  · rename_i range
    exact same _ (by omega)
  · rfl

/-- The bytes seen through a pointer to address a. -/
def view (m : Nat → Byte) (a : Nat) : Nat → Byte := fun k => m (a + k)

@[simp] theorem view_apply (m : Nat → Byte) (a k : Nat) : view m a k = m (a + k) := rfl

theorem view_view (m : Nat → Byte) (a b : Nat) : view (view m a) b = view m (a + b) := by
  funext k
  rw [view_apply, view_apply, view_apply, Nat.add_assoc]

theorem view_zero (m : Nat → Byte) : view m 0 = m := by
  funext k
  rw [view_apply, Nat.zero_add]

/- Two blocks, the second where the first ends. -/
theorem blit_append (m src : Nat → Byte) (a n l : Nat) :
    blit (blit m a n src) (a + n) l (view src n) = blit m a (n + l) src := by
  funext x
  by_cases second : a + n ≤ x ∧ x < a + n + l
  · obtain ⟨k, rfl⟩ := Nat.exists_eq_add_of_le second.1
    have inside : n + k < n + l := by omega
    rw [blit_inside _ _ (by omega), Nat.add_assoc, blit_inside _ _ inside, view_apply]
  · rw [blit_outside _ _ (by omega)]
    simp only [blit]
    congr 1
    apply propext
    omega

def wordByte (w : Word) (k : Nat) : Byte := w.extractLsb' (8 * k) 8

def word (m : Nat → Byte) : Word := m 3 ++ m 2 ++ m 1 ++ m 0

theorem word_congr {m n : Nat → Byte} (same : ∀ k < 4, m k = n k) : word m = word n := by
  simp only [word, same 0 (by decide), same 1 (by decide), same 2 (by decide), same 3 (by decide)]

@[simp] theorem word_wordByte (w : Word) : word (wordByte w) = w := by
  apply BitVec.eq_of_getLsbD_eq
  intro i hi
  simp only [word, wordByte, BitVec.getLsbD_append, BitVec.getLsbD_extractLsb']
  by_cases h0 : i < 8
  · simp [h0]
  · by_cases h1 : i < 16
    · have low : i - 8 < 8 := by omega
      have back : 8 + (i - 8) = i := by omega
      simp [h0, low, back]
    · by_cases h2 : i < 24
      · have skip : ¬ i - 8 < 8 := by omega
        have low : i - 8 - 8 < 8 := by omega
        have back : 16 + (i - 8 - 8) = i := by omega
        simp [h0, skip, low, back]
      · have skip1 : ¬ i - 8 < 8 := by omega
        have skip2 : ¬ i - 8 - 8 < 8 := by omega
        have low : i - 8 - 8 - 8 < 8 := by omega
        have back : 24 + (i - 8 - 8 - 8) = i := by omega
        simp [h0, skip1, skip2, low, back]

theorem wordByte_word (m : Nat → Byte) {k : Nat} (hk : k < 4) : wordByte (word m) k = m k := by
  apply BitVec.eq_of_getLsbD_eq
  intro i hi
  simp only [word, wordByte, BitVec.getLsbD_append, BitVec.getLsbD_extractLsb']
  have bit : 8 * k + i < 32 := by omega
  have cases : k = 0 ∨ k = 1 ∨ k = 2 ∨ k = 3 := by omega
  rcases cases with rfl | rfl | rfl | rfl
  · simp [hi]
  · have c0 : ¬ 8 + i < 8 := by omega
    have r0 : 8 + i - 8 = i := by omega
    simp [c0, r0, hi]
  · have c0 : ¬ 16 + i < 8 := by omega
    have c1 : ¬ 16 + i - 8 < 8 := by omega
    have r1 : 16 + i - 8 - 8 = i := by omega
    simp [c0, c1, r1, hi]
  · have c0 : ¬ 24 + i < 8 := by omega
    have c1 : ¬ 24 + i - 8 < 8 := by omega
    have c2 : ¬ 24 + i - 8 - 8 < 8 := by omega
    have r2 : 24 + i - 8 - 8 - 8 = i := by omega
    simp [c0, c1, c2, r2, hi]

theorem word_inj {m n : Nat → Byte} : word m = word n ↔ ∀ k < 4, m k = n k := by
  refine ⟨fun same k hk => ?_, word_congr⟩
  rw [← wordByte_word m hk, same, wordByte_word n hk]

/- An array of words in memory: the i-th word is bytes 4i to 4i+3. -/
def wordAt (m : Nat → Byte) (i : Nat) : Word := word (view m (4 * i))

def wordsBytes (ws : Nat → Word) : Nat → Byte := fun x => wordByte (ws (x / 4)) (x % 4)

theorem wordAt_wordsBytes (ws : Nat → Word) (i : Nat) : wordAt (wordsBytes ws) i = ws i := by
  have bytes : ∀ k < 4, view (wordsBytes ws) (4 * i) k = wordByte (ws i) k := by
    intro k hk
    have div : (4 * i + k) / 4 = i := by omega
    have rem : (4 * i + k) % 4 = k := by omega
    simp only [view_apply, wordsBytes, div, rem]
  rw [wordAt, word_congr bytes, word_wordByte]

theorem wordAt_congr {m n : Nat → Byte} {i : Nat} (same : ∀ k < 4, m (4 * i + k) = n (4 * i + k)) :
    wordAt m i = wordAt n i :=
  word_congr same

theorem wordAt_inj {m n : Nat → Byte} {i : Nat} : wordAt m i = wordAt n i ↔ ∀ k < 4, m (4 * i + k) = n (4 * i + k) :=
  word_inj

/- Storing one word of an array, seen from the array's base. -/
theorem wordAt_store (m : Nat → Byte) (base i : Nat) (w : Word) :
    wordAt (view (blit m (base + i * 4) 4 (wordByte w)) base) i = w := by
  have bytes : ∀ k < 4, view (view (blit m (base + i * 4) 4 (wordByte w)) base) (4 * i) k = wordByte w k := by
    intro k hk
    have addr : base + (4 * i + k) = base + i * 4 + k := by omega
    rw [view_apply, view_apply, addr, blit_inside _ _ hk]
  rw [wordAt, word_congr bytes, word_wordByte]

theorem wordAt_store_other (m src : Nat → Byte) {base a n i : Nat}
    (outside : ∀ k < 4, base + 4 * i + k < a ∨ a + n ≤ base + 4 * i + k) :
    wordAt (view (blit m a n src) base) i = wordAt (view m base) i := by
  apply wordAt_congr
  intro k hk
  have apart := outside k hk
  exact blit_outside _ _ (by omega)

/-- The memory holds the string cs followed by a NUL; the characters are not NUL. -/
def Holds (m : Nat → Byte) : List Byte → Prop
  | [] => m 0 = 0
  | c :: cs => m 0 = c ∧ c ≠ 0 ∧ Holds (view m 1) cs

instance decidableHolds : (m : Nat → Byte) → (cs : List Byte) → Decidable (Holds m cs)
  | m, [] => inferInstanceAs (Decidable (m 0 = 0))
  | m, c :: cs =>
    have := decidableHolds (view m 1) cs
    inferInstanceAs (Decidable (m 0 = c ∧ c ≠ 0 ∧ Holds (view m 1) cs))

theorem holds_congr {m n : Nat → Byte} {cs : List Byte} (same : ∀ k ≤ cs.length, m k = n k)
    (holds : Holds m cs) : Holds n cs := by
  induction cs generalizing m n with
  | nil => exact (same 0 (Nat.le_refl 0)).symm.trans holds
  | cons c cs ih =>
    refine ⟨(same 0 (Nat.zero_le _)).symm.trans holds.1, holds.2.1, ih (fun k hk => ?_) holds.2.2⟩
    have length : (c :: cs).length = cs.length + 1 := rfl
    exact same (1 + k) (by omega)

theorem holds_unique {m : Nat → Byte} {cs ds : List Byte} (hc : Holds m cs) (hd : Holds m ds) :
    cs = ds := by
  induction cs generalizing m ds with
  | nil =>
    cases ds with
    | nil => rfl
    | cons d ds => exact absurd (hd.1.symm.trans hc) hd.2.1
  | cons c cs ih =>
    cases ds with
    | nil => exact absurd (hc.1.symm.trans hd) hc.2.1
    | cons d ds => rw [hc.1.symm.trans hd.1, ih hc.2.2 hd.2.2]

theorem holds_nul {m : Nat → Byte} {cs : List Byte} (holds : Holds m cs) : m cs.length = 0 := by
  induction cs generalizing m with
  | nil => exact holds
  | cons c cs ih =>
    have last := ih holds.2.2
    rwa [view_apply, Nat.add_comm] at last

/-- Memories that hold one string agree up to its NUL. -/
theorem holds_same {m n : Nat → Byte} {cs : List Byte} (hm : Holds m cs) (hn : Holds n cs) {k : Nat}
    (inside : k ≤ cs.length) : m k = n k := by
  induction cs generalizing m n k with
  | nil =>
    cases Nat.le_zero.mp inside
    exact Eq.trans hm (Eq.symm hn)
  | cons c cs ih =>
    cases k with
    | zero => exact hm.1.trans hn.1.symm
    | succ k =>
      have tail := ih hm.2.2 hn.2.2 (Nat.le_of_succ_le_succ inside)
      rwa [view_apply, view_apply, Nat.add_comm] at tail

/-- A string without its NUL, and another one behind it. -/
theorem holds_append {m n : Nat → Byte} {cs ds : List Byte} (holds : Holds n cs) (front : ∀ k < cs.length, m k = n k)
    (back : Holds (view m cs.length) ds) : Holds m (cs ++ ds) := by
  induction cs generalizing m n with
  | nil => rwa [List.length_nil, view_zero] at back
  | cons c cs ih =>
    refine ⟨(front 0 (Nat.succ_pos _)).trans holds.1, holds.2.1, ih holds.2.2 (fun k inside => ?_) ?_⟩
    · exact front (1 + k) (by rw [List.length_cons]; omega)
    · rwa [view_view, Nat.add_comm 1]

theorem holds_nonzero {m : Nat → Byte} {cs : List Byte} (holds : Holds m cs) : ∀ c ∈ cs, c ≠ 0 := by
  induction cs generalizing m with
  | nil =>
    intro c mem
    cases mem
  | cons d cs ih =>
    intro c mem
    cases List.mem_cons.mp mem with
    | inl same => exact same ▸ holds.2.1
    | inr later => exact ih holds.2.2 c later

/-- The string that a memory holds, if its NUL is one of the first lim bytes. -/
def readString : Nat → (Nat → Byte) → Option (List Byte)
  | 0, _ => none
  | lim + 1, m => if m 0 = 0 then some [] else (readString lim (view m 1)).map (m 0 :: ·)

theorem readString_congr {lim : Nat} {m n : Nat → Byte} (same : ∀ k < lim, m k = n k) :
    readString lim m = readString lim n := by
  induction lim generalizing m n with
  | zero => rfl
  | succ lim ih =>
    have tail : readString lim (view m 1) = readString lim (view n 1) := ih (fun k hk => same (1 + k) (by omega))
    unfold readString
    rw [same 0 (Nat.succ_pos lim), tail]

theorem readString_eq_some {lim : Nat} {m : Nat → Byte} {cs : List Byte} :
    readString lim m = some cs ↔ Holds m cs ∧ cs.length < lim := by
  induction lim generalizing m cs with
  | zero => exact ⟨fun h => (by cases h), fun h => absurd h.2 (Nat.not_lt_zero _)⟩
  | succ lim ih =>
    unfold readString
    split
    · rename_i nul
      constructor
      · intro same
        cases Option.some.inj same
        exact ⟨nul, Nat.succ_pos lim⟩
      · intro holds
        rw [holds_unique holds.1 (show Holds m [] from nul)]
    · rename_i more
      rw [Option.map_eq_some_iff]
      constructor
      · rintro ⟨ds, tail, rfl⟩
        obtain ⟨holds, short⟩ := ih.mp tail
        exact ⟨⟨rfl, more, holds⟩, Nat.succ_lt_succ short⟩
      · rintro ⟨holds, short⟩
        cases cs with
        | nil => exact absurd holds more
        | cons c cs => exact ⟨cs, ih.mpr ⟨holds.2.2, Nat.lt_of_succ_lt_succ short⟩, by rw [holds.1]⟩

theorem holds_replicate {m : Nat → Byte} {c : Byte} (nonzero : c ≠ 0) {n : Nat} (same : ∀ k < n, m k = c)
    (nul : m n = 0) : Holds m (List.replicate n c) := by
  induction n generalizing m with
  | zero => exact nul
  | succ n ih =>
    refine ⟨same 0 (Nat.succ_pos n), nonzero, ih ?_ ?_⟩
    · intro k inside
      rw [view_apply, Nat.add_comm]
      exact same (k + 1) (Nat.succ_lt_succ inside)
    · rw [view_apply, Nat.add_comm]
      exact nul

/-- The bytes cs followed by a NUL, where there may be NULs among them already. -/
def Spells (m : Nat → Byte) : List Byte → Prop
  | [] => m 0 = 0
  | c :: cs => m 0 = c ∧ Spells (view m 1) cs

theorem spells_congr {m n : Nat → Byte} {cs : List Byte} (same : ∀ k ≤ cs.length, m k = n k)
    (spells : Spells m cs) : Spells n cs := by
  induction cs generalizing m n with
  | nil => exact (same 0 (Nat.le_refl 0)).symm.trans spells
  | cons c cs ih =>
    constructor
    · exact (same 0 (Nat.zero_le _)).symm.trans spells.1
    · apply ih _ spells.2
      intro k inside
      exact same (1 + k) (by rw [List.length_cons, Nat.add_comm]; exact Nat.succ_le_succ inside)

/-- A string ends at the first NUL. -/
theorem spells_holds {m : Nat → Byte} {cs : List Byte} (spells : Spells m cs) :
    Holds m (cs.takeWhile (· ≠ 0)) := by
  induction cs generalizing m with
  | nil => exact spells
  | cons c cs ih =>
    by_cases nul : c = 0
    · simp only [nul, List.takeWhile_cons, ne_eq, not_true, decide_false, Bool.false_eq_true, if_false]
      exact spells.1.trans nul
    · simp only [nul, List.takeWhile_cons, ne_eq, not_false_eq_true, decide_true, if_true]
      exact ⟨spells.1, nul, ih spells.2⟩

theorem spells_getD {m : Nat → Byte} {cs : List Byte} (spells : Spells m cs) {k : Nat} (inside : k ≤ cs.length) :
    m k = cs.getD k 0 := by
  induction cs generalizing m k with
  | nil =>
    cases Nat.le_zero.mp inside
    exact spells
  | cons c cs ih =>
    cases k with
    | zero => exact spells.1
    | succ k =>
      have tail := ih spells.2 (Nat.le_of_succ_le_succ inside)
      rwa [view_apply, Nat.add_comm] at tail

theorem holds_spells {m : Nat → Byte} {cs : List Byte} (holds : Holds m cs) : Spells m cs := by
  induction cs generalizing m with
  | nil => exact holds
  | cons c cs ih => exact ⟨holds.1, ih holds.2.2⟩

theorem holds_getD {m : Nat → Byte} {cs : List Byte} (holds : Holds m cs) {k : Nat} (inside : k ≤ cs.length) :
    m k = cs.getD k 0 := spells_getD (holds_spells holds) inside

theorem holds_inside {m : Nat → Byte} {cs : List Byte} (holds : Holds m cs) {k : Nat} (inside : k < cs.length) :
    m k ≠ 0 := by
  induction cs generalizing m k with
  | nil => exact absurd inside (Nat.not_lt_zero k)
  | cons c cs ih =>
    cases k with
    | zero => exact holds.1.symm ▸ holds.2.1
    | succ k =>
      have later := ih holds.2.2 (Nat.lt_of_succ_lt_succ inside)
      rwa [view_apply, Nat.add_comm] at later

theorem spells_range {m f : Nat → Byte} {n : Nat} (same : ∀ k < n, m k = f k) (nul : m n = 0) :
    Spells m ((List.range n).map f) := by
  induction n generalizing m f with
  | zero => exact nul
  | succ n ih =>
    rw [List.range_succ_eq_map, List.map_cons, List.map_map]
    constructor
    · exact same 0 (Nat.succ_pos n)
    · apply ih
      · intro k inside
        rw [view_apply, Nat.add_comm]
        exact same (k + 1) (Nat.succ_lt_succ inside)
      · rw [view_apply, Nat.add_comm]
        exact nul

theorem spells_append {m : Nat → Byte} {cs ds : List Byte} (front : ∀ k < cs.length, m k = cs.getD k 0)
    (back : Spells (view m cs.length) ds) : Spells m (cs ++ ds) := by
  induction cs generalizing m with
  | nil => exact spells_congr (fun k _ => congrArg m (Nat.zero_add k)) back
  | cons c cs ih =>
    constructor
    · exact front 0 (Nat.succ_pos _)
    · apply ih
      · intro k inside
        rw [view_apply, Nat.add_comm]
        exact front (k + 1) (Nat.succ_lt_succ inside)
      · apply spells_congr _ back
        intro k _
        simp only [view_apply, List.length_cons]
        congr 1
        omega

/-- A pointer to a NUL-terminated string, with the memory that follows the NUL. -/
structure CString where
  mem : Nat → Byte
  chars : List Byte
  holds : Holds mem chars

end Bytes
