import Icix.Fs.Directory

/-! The bytes of the entries that ufs_creat and mkfs write, for both builds' strcpy:
those of a new directory, and the new entry of its parent. -/
namespace Icix
open Bytes Ownership

theorem entInum_unused {m : Nat → Byte} (bytes : ∀ k, 28 ≤ k → k < 32 → m k = 0xFF) : entInum m = -1 := by
  have ones : word (fun _ => 0xFF) = -1 := by decide
  rw [← ones]
  exact word_congr (fun k hk => bytes (28 + k) (by omega) (by omega))

theorem clearEntries_unused (m : Nat → Byte) {start t : Nat} (low : start ≤ t) (high : t < 128) :
    entInum (view (clearEntries m start) (32 * t)) = -1 := by
  refine entInum_unused (fun k lowK highK => ?_)
  have entry : (32 * t + k) / 32 = t := by omega
  have field : (32 * t + k) % 32 = k := by omega
  simp only [view_apply, clearEntries, entry, field]
  exact if_pos ⟨low, high, lowK⟩

theorem clearEntries_below (m : Nat → Byte) {start x : Nat} (below : x < 32 * start) :
    clearEntries m start x = m x := by
  have outside : ¬ (start ≤ x / 32 ∧ x / 32 < 128 ∧ 28 ≤ x % 32) := by omega
  exact if_neg outside

theorem putWord_word (m : Nat → Byte) (a : Nat) (w : Word) : word (view (putWord m a w) a) = w := by
  have bytes : ∀ k < 4, view (putWord m a w) a k = wordByte w k := fun k hk => blit_inside _ _ hk
  rw [word_congr bytes, word_wordByte]

/- One entry that a build has made of a name: strcpy into the junk that was there,
and the inode number. -/
structure Made (b : Build) (name : CString) (inum : Nat) (junk m : Nat → Byte) : Prop where
  inum_eq : entInum m = BitVec.ofNat 32 inum
  copy : ∀ k < 28, m k = if k < copied b name then name.mem k else junk k

theorem copied_le {b : Build} {name : CString} (fits : Fits b name) : copied b name ≤ 28 := by
  cases b with
  | host => exact Nat.succ_le_succ (fits rfl)
  | kernel => exact (by decide : 5 ≤ 28)

section Bytes

variable {b : Build} {name : CString} (fits : Fits b name) (stk : Stack) (inum : Nat)
include fits

omit fits in
theorem dentBytes_made : Made b name inum stk.dent (dentBytes b stk inum name) where
  inum_eq := putWord_word _ 28 _
  copy k hk := by
    rw [dentBytes, putWord, blit_outside _ _ (Or.inl hk)]
    simp only [blit, Nat.zero_le, true_and, Nat.zero_add, Nat.sub_zero]

theorem entryBytes_made : Made b name inum stk.newBlock (entryBytes b stk inum name) where
  inum_eq := by
    have le := copied_le fits
    rw [← putWord_word stk.newBlock 28 (BitVec.ofNat 32 inum)]
    refine word_congr (fun k hk => ?_)
    rw [view_apply, entryBytes, clearEntries_below _ (by omega), blit_outside _ _ (Or.inr (by omega))]
    rfl
  copy k hk := by
    rw [entryBytes, clearEntries_below _ (by omega)]
    by_cases copy : k < copied b name
    · have inside := blit_inside (putWord stk.newBlock 28 (BitVec.ofNat 32 inum)) name.mem (a := 0) copy
      rw [Nat.zero_add] at inside
      rw [if_pos copy, inside]
    · rw [if_neg copy, blit_outside _ _ (Or.inr (by omega)), putWord, blit_outside _ _ (Or.inl hk)]

end Bytes

theorem entryBytes_unused (b : Build) (stk : Stack) (inum : Nat) (name : CString) {t : Nat} (low : 1 ≤ t)
    (high : t < 128) : entInum (view (entryBytes b stk inum name) (32 * t)) = -1 :=
  clearEntries_unused _ low high

/-- The entry is the name's when all of it has been copied, or stood there already. -/
theorem Made.entry {b : Build} {name : CString} {inum : Nat} {junk m : Nat → Byte}
    (made : Made b name inum junk m) (short : name.chars.length ≤ 27) (small : inum < 2147483648)
    (rest : ∀ k ≤ name.chars.length, copied b name ≤ k → junk k = name.mem k) :
    EntryAt m name.chars inum where
  holds := by
    refine holds_congr (fun k hk => ?_) name.holds
    rw [made.copy k (by omega)]
    split
    · rfl
    · exact (rest k hk (by omega)).symm
  short := short
  inum_eq := made.inum_eq
  small := small

theorem Made.entry_iff {b : Build} {name : CString} {inum : Nat} {junk m : Nat → Byte}
    (made : Made b name inum junk m) (small : inum < 2147483648) :
    EntryAt m name.chars inum ↔
      name.chars.length ≤ 27 ∧ ∀ k ≤ name.chars.length, copied b name ≤ k → junk k = name.mem k := by
  constructor
  · intro entry
    have short := entry.short
    refine ⟨short, fun k inside past => ?_⟩
    have copy := made.copy k (by omega)
    rw [if_neg (Nat.not_lt_of_le past)] at copy
    rw [← copy]
    exact holds_same entry.holds name.holds inside
  · rintro ⟨short, rest⟩
    exact made.entry short small rest

/-- A new directory's block: itself, its parent, and unused entries. -/
theorem dirBytes_entries (b : Build) (stk : Stack) {inum pinum : Nat} (hi : inum < 2147483648)
    (hp : pinum < 2147483648) :
    EntryAt (view (dirBytes b stk inum pinum) 0) [46] inum ∧
    EntryAt (view (dirBytes b stk inum pinum) 32) [46, 46] pinum ∧
    ∀ t, 2 ≤ t → t < 128 → entInum (view (dirBytes b stk inum pinum) (32 * t)) = -1 := by
  have fitsDot : Fits b (dot stk.rodata) := fun _ => show 1 ≤ 27 by decide
  have fitsDots : Fits b (dotdot stk.rodata) := fun _ => show 2 ≤ 27 by decide
  have dotLe := copied_le fitsDot
  have dotsLe := copied_le fitsDots
  have dotMore : 2 ≤ copied b (dot stk.rodata) := by
    cases b with
    | host => exact (by decide : 2 ≤ 2)
    | kernel => exact (by decide : 2 ≤ 5)
  have dotsMore : 3 ≤ copied b (dotdot stk.rodata) := by
    cases b with
    | host => exact (by decide : 3 ≤ 3)
    | kernel => exact (by decide : 3 ≤ 5)
  refine ⟨⟨?_, by decide, ?_, hi⟩, ⟨?_, by decide, ?_, hp⟩, fun t low high => clearEntries_unused _ low high⟩
  · refine holds_congr (fun k hk => ?_) (dot stk.rodata).holds
    have short : k ≤ 1 := hk
    rw [view_apply, Nat.zero_add, dirBytes, clearEntries_below _ (by omega), putWord,
      blit_outside _ _ (Or.inl (by omega)), blit_outside _ _ (Or.inl (by omega)), putWord,
      blit_outside _ _ (Or.inl (by omega))]
    have inside := blit_inside stk.newDir (dot stk.rodata).mem (a := 0) (n := copied b (dot stk.rodata)) (k := k)
      (by omega)
    rw [Nat.zero_add] at inside
    exact inside.symm
  · rw [← putWord_word (blit stk.newDir 0 (copied b (dot stk.rodata)) (dot stk.rodata).mem) 28
      (BitVec.ofNat 32 inum)]
    refine word_congr (fun k hk => ?_)
    rw [view_apply, view_apply, dirBytes, clearEntries_below _ (by omega), putWord,
      blit_outside _ _ (Or.inl (by omega)), blit_outside _ _ (Or.inl (by omega)), Nat.zero_add]
    rfl
  · refine holds_congr (fun k hk => ?_) (dotdot stk.rodata).holds
    have short : k ≤ 2 := hk
    rw [view_apply, dirBytes, clearEntries_below _ (by omega), putWord, blit_outside _ _ (Or.inl (by omega))]
    exact (blit_inside _ _ (by omega)).symm
  · refine Eq.trans ?_ (putWord_word (blit (putWord (blit stk.newDir 0 (copied b (dot stk.rodata))
      (dot stk.rodata).mem) 28 (BitVec.ofNat 32 inum)) 32 (copied b (dotdot stk.rodata))
      (dotdot stk.rodata).mem) 60 (BitVec.ofNat 32 pinum))
    refine word_congr (fun k hk => ?_)
    have addr : 32 + (28 + k) = 60 + k := by omega
    rw [view_apply, view_apply, addr, dirBytes, clearEntries_below _ (by omega)]
    rfl

end Icix
