import Icix.Fs.Write

/-! ufs_write as a whole: its checks, and what it leaves in the file. -/
namespace Icix
open Bytes Ownership

/-- The checks of ufs_write before its loop. -/
structure Ufs.Writable (u : Ufs) (inum offset nbytes : Int) : Prop where
  low : 0 ≤ inum
  high : inum < u.s.numInodes.toInt
  bit : getBitmap u.inodeBp inum = true
  nbytes_le : nbytes ≤ 4096
  offset_le : offset ≤ (u.inodes inum.toNat).size.toInt
  regular : (u.inodes inum.toNat).type = ufsRegularFile
  offset_nonneg : 0 ≤ offset
  nbytes_pos : 0 < nbytes

theorem Ufs.Writable.allocated {u : Ufs} {inum offset nbytes : Int}
    (writable : u.Writable inum offset nbytes) : u.allocated inum.toNat :=
  allocated_of_bit writable.low writable.high writable.bit

section Write

variable {b : Build} {u : Ufs} {inum offset nbytes : Int} {buf : Nat → Byte}

theorem ufsWrite_unwritable (unwritable : ¬ u.Writable inum offset nbytes) :
    ufsWrite b u inum buf offset nbytes = .ok (-1, u) := by
  unfold ufsWrite
  by_cases range : inum < 0 ∨ u.s.numInodes.toInt ≤ inum
  · rw [if_pos range]
  · rw [if_neg range]
    by_cases bit : getBitmap u.inodeBp inum = false
    · rw [if_pos bit]
    · rw [if_neg bit]
      dsimp only
      split
      · rfl
      · rename_i checks
        simp only [not_or, Int.not_lt, Int.not_le, ne_eq, not_not] at checks
        exact absurd ⟨by omega, by omega, by simpa using bit, checks.1, checks.2.1, checks.2.2.1,
          checks.2.2.2.1, checks.2.2.2.2⟩ unwritable

theorem ufsWrite_writable (writable : u.Writable inum offset nbytes) :
    ufsWrite b u inum buf offset nbytes =
      writeLoop b inum.toNat buf nbytes.toNat (30 - offset.toNat / 4096) 0 (offset.toNat % 4096)
        (markDirty u inum.toNat) >>= fun out =>
      if out.1 = false then .ok (-1, out.2)
      else commitOrExit b out.2 "ufs_write commit dirty to disk fail" >>= fun v => .ok (0, v) := by
  have h := writable
  have range : ¬ (inum < 0 ∨ u.s.numInodes.toInt ≤ inum) := by
    have low := h.low
    have high := h.high
    omega
  have checks : ¬ (4096 < nbytes ∨ (u.inodes inum.toNat).size.toInt < offset ∨
      (u.inodes inum.toNat).type ≠ ufsRegularFile ∨ offset < 0 ∨ nbytes ≤ 0) := by
    have le := h.nbytes_le
    have inside := h.offset_le
    have low := h.offset_nonneg
    have positive := h.nbytes_pos
    rintro (large | past | other | negative | empty)
    · omega
    · omega
    · exact other h.regular
    · omega
    · omega
  unfold ufsWrite
  rw [if_neg range, if_neg (by simp [h.bit])]
  simp only [if_neg checks]

theorem markDirty_dirty (u : Ufs) (i : Nat) : getBitmap (markDirty u i).dirtyInodeBp i = true :=
  get_set_self u.dirtyInodeBp i

/-- How a write that passes its checks ends: with 0 after a commit, when it has
written everything or come past the last pointer, or with -1 before one, when the
data bitmap is full. -/
inductive Wrote (u : Ufs) (i : Nat) (buf : Nat → Byte) (start n : Nat) : Int → Ufs → Prop
  | all {cur : Nat} {v w : Ufs} (writing : Writing u i buf start cur w) (le : cur ≤ n)
      (ended : cur = n ∨ 122880 ≤ start + cur) (marked : Marked u v) (committed : Committed v w) :
      Wrote u i buf start n 0 w
  | full {cur : Nat} {w : Ufs} (writing : Writing u i buf start cur w) (less : cur < n)
      (inside : start + cur < 122880) (nospace : firstClearData w = none) (marked : Marked u w) :
      Wrote u i buf start n (-1) w

theorem ufsWrite_spec (buf : Nat → Byte) (sound : u.Sound b) (placed : u.Placed)
    (writable : u.Writable inum offset nbytes) :
    ∃ r w, ufsWrite b u inum buf offset nbytes = .ok (r, w) ∧
      Wrote u inum.toNat buf offset.toNat nbytes.toNat r w := by
  have live := writable.allocated
  have start : Writing u inum.toNat buf offset.toNat 0 (markDirty u inum.toNat) := .init rfl rfl rfl rfl rfl
  rw [ufsWrite_writable writable]
  obtain ⟨done, v, cur, run, writing, marked, le, ended, stopped⟩ :=
    writeLoop_spec sound placed live _ 0 _ (markDirty u inum.toNat) (Position.init offset.toNat nbytes.toNat)
      (Nat.zero_le _) start (.markDirty u inum.toNat) (markDirty_dirty u inum.toNat)
  simp only [run]
  cases done with
  | false =>
    obtain ⟨less, inside, nospace⟩ := stopped rfl
    exact ⟨-1, v, rfl, .full writing less inside nospace marked⟩
  | true =>
    have soundV := writing.allocates.sound sound
    obtain ⟨w, commit, committed⟩ := commitOrExit_ok soundV "ufs_write commit dirty to disk fail"
    refine ⟨0, w, ?_, .all (writing.committed sound placed live committed.step) le (ended rfl) marked committed⟩
    show (commitOrExit b v _ >>= fun v => _) = _
    rw [commit]
    rfl

/-- What a write that returned 0 within the last pointer has done. -/
theorem ufsWrite_zero {v : Ufs} (sound : u.Sound b) (placed : u.Placed)
    (returned : ufsWrite b u inum buf offset nbytes = .ok (0, v)) (blocks : offset + nbytes ≤ 122880) :
    u.Writable inum offset nbytes ∧ Writing u inum.toNat buf offset.toNat nbytes.toNat v := by
  by_cases writable : u.Writable inum offset nbytes
  · obtain ⟨r, w, run, wrote⟩ := ufsWrite_spec buf sound placed writable
    have nonneg := writable.offset_nonneg
    have positive := writable.nbytes_pos
    rw [run] at returned
    obtain ⟨rfl, rfl⟩ := Prod.mk.inj (Except.ok.inj returned)
    generalize zero : (0 : Int) = r at wrote
    cases wrote with
    | @all cur _ _ writing le ended =>
      have done : cur = nbytes.toNat := by omega
      exact ⟨writable, done ▸ writing⟩
    | full => omega
  · rw [ufsWrite_unwritable writable] at returned
    cases returned

end Write

/- What the two calls say about the size of the file that was written. -/
theorem Writing.size_toInt {u v : Ufs} {i start n : Nat} {buf : Nat → Byte}
    (writing : Writing u i buf start n v) (low : 0 ≤ (u.inodes i).size.toInt)
    (fits : (u.inodes i).size.toInt + n < 2147483648) :
    (v.inodes i).size.toInt = (u.inodes i).size.toInt + n := by
  have size : n < 2147483648 := by omega
  have count : (BitVec.ofNat 32 n).toInt = n := by
    rw [BitVec.toInt_ofNat']
    exact int32_eq (by omega) (by omega)
  rw [writing.size, BitVec.toInt_add, count]
  exact int32_eq (by omega) (by omega)

end Icix
