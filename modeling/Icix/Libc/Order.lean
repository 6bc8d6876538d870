import Icix.Fs.Operations
import Mathlib.Data.List.Lex

/-! The order of strcmp in libc/string: strings as sequences of unsigned bytes. -/
namespace Icix
open Bytes

def codes (cs : List Byte) : List Nat := cs.map BitVec.toNat

/-- The difference of the first characters that differ, where a NUL stands behind each string. -/
def difference : List Byte → List Byte → Int
  | [], [] => 0
  | [], d :: _ => -d.toNat
  | c :: _, [] => c.toNat
  | c :: cs, d :: ds => if c = d then difference cs ds else c.toNat - d.toNat

theorem toNat_pos {c : Byte} (nonzero : c ≠ 0) : 0 < c.toNat :=
  Nat.pos_of_ne_zero fun zero => nonzero (BitVec.eq_of_toNat_eq zero)

/-- strcmp computes the difference, from the bytes up to the shorter string's NUL. -/
theorem strcmp_eq {lim : Nat} {s t : Nat → Byte} {cs ds : List Byte} (hs : Holds s cs) (ht : Holds t ds)
    (within : cs.length < lim ∨ ds.length < lim) : strcmp lim s t = some (difference cs ds) := by
  induction lim generalizing s t cs ds with
  | zero => omega
  | succ lim ih =>
    unfold strcmp
    cases cs with
    | nil =>
      have first : s 0 = 0 := hs
      have stop : ¬ (s 0 ≠ 0 ∧ s 0 = t 0) := fun go => go.1 hs
      rw [if_neg stop, first]
      cases ds with
      | nil =>
        have second : t 0 = 0 := ht
        rw [second]
        rfl
      | cons d ds =>
        rw [ht.1, difference]
        exact congrArg some (Int.zero_sub _)
    | cons c cs =>
      cases ds with
      | nil =>
        have second : t 0 = 0 := ht
        have stop : ¬ (s 0 ≠ 0 ∧ s 0 = t 0) := fun go => go.1 (go.2.trans ht)
        rw [if_neg stop, hs.1, second, difference]
        exact congrArg some (Int.sub_zero _)
      | cons d ds =>
        rw [hs.1, ht.1, difference]
        by_cases same : c = d
        · rw [if_pos ⟨hs.2.1, same⟩, if_pos same]
          exact ih hs.2.2 ht.2.2 (by simpa using within)
        · rw [if_neg fun go => same go.2, if_neg same]

theorem difference_swap (cs ds : List Byte) : difference ds cs = -difference cs ds := by
  induction cs generalizing ds with
  | nil => cases ds <;> simp [difference]
  | cons c cs ih =>
    cases ds with
    | nil => rfl
    | cons d ds =>
      rw [difference, difference]
      by_cases same : c = d
      · rw [if_pos same, if_pos same.symm, ih]
      · rw [if_neg same, if_neg (Ne.symm same)]
        omega

section Order

variable {cs ds : List Byte} (cs_nonzero : ∀ c ∈ cs, c ≠ 0) (ds_nonzero : ∀ d ∈ ds, d ≠ 0)

include ds_nonzero in
theorem difference_neg_iff : difference cs ds < 0 ↔ codes cs < codes ds := by
  induction cs generalizing ds with
  | nil =>
    cases ds with
    | nil => simp [difference, codes]
    | cons d ds =>
      have pos := toNat_pos (ds_nonzero d List.mem_cons_self)
      have less : difference [] (d :: ds) < 0 := by
        rw [difference]
        omega
      exact iff_of_true less (List.nil_lt_cons _ _)
  | cons c cs ih =>
    cases ds with
    | nil =>
      have more : ¬ difference (c :: cs) [] < 0 := by
        rw [difference]
        omega
      exact iff_of_false more (List.not_lt_nil _)
    | cons d ds =>
      rw [difference, codes, codes, List.map_cons, List.map_cons, List.cons_lt_cons_iff]
      by_cases same : c = d
      · rw [if_pos same, ih fun d mem => ds_nonzero d (List.mem_cons_of_mem _ mem), same]
        simp [codes]
      · have numbers : c.toNat ≠ d.toNat := fun equal => same (BitVec.eq_of_toNat_eq equal)
        rw [if_neg same]
        omega

include cs_nonzero ds_nonzero in
theorem difference_zero_iff : difference cs ds = 0 ↔ cs = ds := by
  induction cs generalizing ds with
  | nil =>
    cases ds with
    | nil => simp [difference]
    | cons d ds =>
      have pos := toNat_pos (ds_nonzero d List.mem_cons_self)
      rw [difference]
      exact iff_of_false (by omega) (List.cons_ne_nil d ds).symm
  | cons c cs ih =>
    cases ds with
    | nil =>
      have pos := toNat_pos (cs_nonzero c List.mem_cons_self)
      rw [difference]
      exact iff_of_false (by omega) (List.cons_ne_nil c cs)
    | cons d ds =>
      rw [difference, List.cons.injEq]
      by_cases same : c = d
      · rw [if_pos same, ih (fun c mem => cs_nonzero c (List.mem_cons_of_mem _ mem))
          (fun d mem => ds_nonzero d (List.mem_cons_of_mem _ mem))]
        exact ⟨fun rest => ⟨same, rest⟩, fun both => both.2⟩
      · have numbers : c.toNat ≠ d.toNat := fun equal => same (BitVec.eq_of_toNat_eq equal)
        rw [if_neg same]
        exact iff_of_false (by omega) fun both => same both.1

end Order

/-- The sign of strcmp is the lexicographic order of the unsigned bytes; what lies behind the
NULs has no influence on it. -/
theorem strcmp_lexicographic (s t : CString) (more : Nat) : ∃ r,
    strcmp (s.chars.length + 1 + more) s.mem t.mem = some r ∧
    (r < 0 ↔ codes s.chars < codes t.chars) ∧ (r = 0 ↔ s.chars = t.chars) ∧ (0 < r ↔ codes t.chars < codes s.chars) ∧
    strcmp (t.chars.length + 1 + more) t.mem s.mem = some (-r) ∧
    (∀ s' t' : CString, s'.chars = s.chars → t'.chars = t.chars →
      strcmp (s.chars.length + 1 + more) s'.mem t'.mem = some r) ∧
    ∀ u : CString, ∃ q p, strcmp (t.chars.length + 1 + more) t.mem u.mem = some q ∧
      strcmp (s.chars.length + 1 + more) s.mem u.mem = some p ∧
      (r ≤ 0 → q ≤ 0 → p ≤ 0) ∧ (r < 0 → q < 0 → p < 0) ∧ (r = 0 → q = 0 → p = 0) := by
  have run : ∀ x y : CString, strcmp (x.chars.length + 1 + more) x.mem y.mem = some (difference x.chars y.chars) :=
    fun x y => strcmp_eq x.holds y.holds (.inl (by omega))
  have less : ∀ x y : CString, difference x.chars y.chars < 0 ↔ codes x.chars < codes y.chars :=
    fun x y => difference_neg_iff (holds_nonzero y.holds)
  have equal : ∀ x y : CString, difference x.chars y.chars = 0 ↔ x.chars = y.chars :=
    fun x y => difference_zero_iff (holds_nonzero x.holds) (holds_nonzero y.holds)
  have swap := difference_swap s.chars t.chars
  refine ⟨difference s.chars t.chars, run s t, less s t, equal s t, ?_, swap ▸ run t s, ?_, ?_⟩
  · rw [← less t s, swap]
    omega
  · intro s' t' sameS sameT
    have again := run s' t'
    rwa [sameS, sameT] at again
  · intro u
    have trans : difference s.chars t.chars < 0 → difference t.chars u.chars < 0 → difference s.chars u.chars < 0 := by
      rw [less, less, less]
      exact lt_trans
    refine ⟨_, _, run t u, run s u, ?_, trans, ?_⟩
    · intro le₁ le₂
      rcases Int.lt_or_eq_of_le le₁ with first | same
      · rcases Int.lt_or_eq_of_le le₂ with second | same
        · exact Int.le_of_lt (trans first second)
        · rw [← (equal t u).mp same]
          exact le₁
      · rw [(equal s t).mp same]
        exact le₂
    · intro zero₁ zero₂
      rw [equal] at zero₁ zero₂ ⊢
      exact zero₁.trans zero₂

end Icix
