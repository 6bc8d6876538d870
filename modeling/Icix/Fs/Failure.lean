import Icix.Fs.Mount

/-! What a creation that returns -1 leaves behind. The checks up to the search for an
inode come before any change; those after it come when the inode is marked, in memory
and as dirty, and none of them takes that back. -/
namespace Icix
open Bytes Ownership

/-- The parts of a file system that a call could change are as they were. -/
structure Unchanged (u w : Ufs) : Prop where
  inodeBp : w.inodeBp = u.inodeBp
  dataBp : w.dataBp = u.dataBp
  inodes : w.inodes = u.inodes
  disk : w.disk = u.disk

/-- The clear blocks that ufs_creat has found are too few for what it has to write. -/
def Short (type : Word) (full : Bool) (data : Option Nat × Option Nat) : Prop :=
  if type = ufsDirectory then data.1 = none ∨ full = true ∧ data.2 = none
  else full = true ∧ data.1 = none

/-- The checks of ufs_creat after it has marked its inode. -/
def Ufs.Refused (b : Build) (u : Ufs) (pinum : Nat) (type : Word) : Prop :=
  (u.inodes pinum).size = 122880 ∨
  ∃ full, isPinodeFull b u.disk (u.inodes pinum) 30 = .ok full ∧ Short type full (emptyPosData u)

section Late

variable {b : Build} {u w : Ufs} {pinum inum : Nat} {type : Word} {name : CString} {stk : Stack}

theorem finishCreat_committed {r : Creat} (returned : finishCreat b u pinum = .ok (r, w)) : r = .committed := by
  obtain ⟨v, _, same⟩ := Runs.bind_ok.mp returned
  exact (congrArg Prod.fst (Except.ok.inj same)).symm

theorem updateParent_failed {k : Option Nat} {full : Bool} :
    updateParent b u pinum inum k full name stk = .ok (.failed, w) ↔
      full = true ∧ (k = none ∨ (u.inodes pinum).size = 122880) ∧ w = markDirty u pinum := by
  have parent : (markDirty u pinum).inodes pinum = u.inodes pinum := rfl
  constructor
  · intro returned
    cases full with
    | false =>
      obtain ⟨v, _, finish⟩ := Runs.bind_ok.mp returned
      cases finishCreat_committed finish
    | true =>
      cases k with
      | none => exact ⟨rfl, Or.inl rfl, (congrArg Prod.snd (Except.ok.inj returned)).symm⟩
      | some k =>
        simp only [updateParent, if_true, parent] at returned
        split at returned
        · rename_i large
          exact ⟨rfl, Or.inr large, (congrArg Prod.snd (Except.ok.inj returned)).symm⟩
        · obtain ⟨v, _, finish⟩ := Runs.bind_ok.mp returned
          cases finishCreat_committed finish
  · rintro ⟨rfl, none | large, rfl⟩
    · subst none
      rfl
    · cases k with
      | none => rfl
      | some k => simp only [updateParent, if_true, parent, if_pos large]

theorem makeDirectory_inodes {v : Ufs} {k : Nat} (other : pinum ≠ inum)
    (made : makeDirectory b u pinum inum k stk = .ok v) :
    v.inodes pinum = u.inodes pinum ∧ v.inodeBp = u.inodeBp := by
  obtain ⟨data, _, made⟩ := Runs.bind_ok.mp made
  split at made
  · cases made
  · cases made
    exact ⟨Function.update_of_ne other _ _, rfl⟩

/-- Every return of -1 after the claim is one of the late checks, and keeps the inode. -/
theorem creatAt_failed (other : pinum ≠ inum) {data : Option Nat × Option Nat}
    (returned : creatAt b u pinum inum data type name stk = .ok (.failed, w)) :
    ((u.inodes pinum).size = 122880 ∨
      ∃ full, isPinodeFull b u.disk (u.inodes pinum) 30 = .ok full ∧ Short type full data) ∧
      w.inodeBp = setBitmap u.inodeBp inum := by
  have parent : (claimInode u inum type).inodes pinum = u.inodes pinum := claimInode_other type other
  simp only [creatAt, parent] at returned
  split at returned
  · rename_i large
    cases returned
    exact ⟨Or.inl large, rfl⟩
  · rename_i room
    obtain ⟨full, scan, returned⟩ := Runs.bind_ok.mp returned
    suffices late : Short type full data ∧ w.inodeBp = setBitmap u.inodeBp inum from
      ⟨Or.inr ⟨full, scan, late.1⟩, late.2⟩
    unfold Short
    split at returned
    · rename_i dir
      rw [if_pos dir]
      split at returned
      · rename_i none
        cases returned
        exact ⟨Or.inl none, rfl⟩
      · split at returned
        · rename_i late
          cases returned
          exact ⟨Or.inr late, rfl⟩
        · rename_i enough
          obtain ⟨v, made, returned⟩ := Runs.bind_ok.mp returned
          obtain ⟨isFull, none | large, _⟩ := updateParent_failed.mp returned
          · exact absurd ⟨isFull, none⟩ enough
          · rw [(makeDirectory_inodes other made).1, parent] at large
            exact absurd large room
    · rename_i file
      rw [if_neg file]
      obtain ⟨isFull, none | large, rfl⟩ := updateParent_failed.mp returned
      · exact ⟨⟨isFull, none⟩, rfl⟩
      · have same : ((emptied (claimInode u inum type) inum).inodes pinum).size = (u.inodes pinum).size :=
          congrArg Inode.size ((Function.update_of_ne other _ _).trans parent)
        exact absurd (same.symm.trans large) room

theorem creatAt_refused (other : pinum ≠ inum) (refused : u.Refused b pinum type) (name : CString) (stk : Stack) :
    ∃ w, creatAt b u pinum inum (emptyPosData u) type name stk = .ok (.failed, w) := by
  have parent : (claimInode u inum type).inodes pinum = u.inodes pinum := claimInode_other type other
  have disk : (claimInode u inum type).disk = u.disk := rfl
  simp only [creatAt, parent, disk]
  by_cases large : (u.inodes pinum).size = 122880
  · exact ⟨_, if_pos large⟩
  · obtain ⟨full, scan, late⟩ := refused.resolve_left large
    rw [if_neg large, scan]
    simp only [Runs.ok_bind]
    unfold Short at late
    split at late
    · rename_i dir
      rw [if_pos dir]
      cases first : (emptyPosData u).1 with
      | none => exact ⟨_, rfl⟩
      | some k =>
        rw [first] at late
        exact ⟨_, if_pos (late.resolve_left (fun h => by cases h))⟩
    · rename_i file
      rw [if_neg file]
      exact ⟨_, updateParent_failed.mpr ⟨late.1, Or.inl late.2, rfl⟩⟩

end Late

/-- A call that returns -1 leaves the file system as it was exactly when it is not
one that passes the checks before the claim of an inode and fails one after it. -/
theorem failed_creat_unchanged (b : Build) (u : Ufs) (pinum : Int) (type : Word) (name : CString) (stk : Stack) :
    (∀ w, ufsCreat b u pinum type name stk = .ok (.failed, w) → Unchanged u w) ↔
      ¬ ((∃ inum, u.Creatable b pinum name inum) ∧ u.Refused b pinum.toNat type) := by
  constructor
  · rintro unchanged ⟨⟨inum, creatable⟩, refused⟩
    obtain ⟨_, clear⟩ := emptyPosInode_some creatable.found
    have other := claimed_ne creatable.live clear
    obtain ⟨w, returned⟩ := creatAt_refused other refused name stk
    have same := (unchanged w ((creatable.ufsCreat type stk).trans returned)).inodeBp
    -- the bit that was clear is set
    rw [(creatAt_failed other returned).2] at same
    have set := get_set_self u.inodeBp inum
    rw [same, clear] at set
    cases set
  · intro early w returned
    by_cases creatable : ∃ inum, u.Creatable b pinum name inum
    · obtain ⟨inum, creatable⟩ := creatable
      obtain ⟨_, clear⟩ := emptyPosInode_some creatable.found
      rw [creatable.ufsCreat] at returned
      have late := (creatAt_failed (claimed_ne creatable.live clear) returned).1
      exact absurd ⟨⟨inum, creatable⟩, late⟩ early
    · obtain ⟨_, rfl⟩ := ufsCreat_early creatable returned
      exact ⟨rfl, rfl, rfl, rfl⟩

/- A new file system whose data blocks are all in use. -/
def exhausted : Ufs := { smallest with dataBp := fun _ => -1 }

theorem exhausted_owned : exhausted.Owned where
  exclusive := (smallest_fresh .host).owned.exclusive
  covered := by
    refine (smallest_fresh .host).owned.covered.mono (fun d ⟨k, hk, same, _⟩ => ⟨k, hk, same, ?_⟩)
    have ones : ∀ i < 32, getBitmap (fun _ => -1) (i : Nat) = true := by decide
    exact ones k hk

/-- A directory that finds no block leaves its inode behind. -/
theorem failed_creat_leaks : ∃ w, exhausted.Sound .host ∧ exhausted.Owned ∧
    ufsCreat .host exhausted (0 : Nat) ufsDirectory (letter 97 (by decide)) zeros = .ok (.failed, w) ∧
    getBitmap exhausted.inodeBp 1 = false ∧ getBitmap w.inodeBp 1 = true ∧ ¬ Unchanged exhausted w := by
  have check : (ufsCreat .host exhausted (0 : Nat) ufsDirectory (letter 97 (by decide)) zeros).map
      (fun out => (out.1, getBitmap out.2.inodeBp 1)) = .ok (.failed, true) := by decide +kernel
  have clear : getBitmap exhausted.inodeBp 1 = false := by decide +kernel
  obtain ⟨⟨r, w⟩, returned, same⟩ := Runs.map_ok.mp check
  obtain ⟨rfl, marked⟩ := Prod.mk.inj same
  refine ⟨w, (smallest_fresh .host).sound, exhausted_owned, returned, clear, marked, fun unchanged => ?_⟩
  rw [unchanged.inodeBp, clear] at marked
  cases marked

end Icix
