import Icix.Fs.Unlink

/-! What one call does to a state whose pointers are in the data region: nothing, or
one of the relations of the calls that return. Invariants of runs are read off it. -/
namespace Icix
open Bytes Ownership

inductive Effect (b : Build) (u : Ufs) : Call → Ufs → Prop
  | none (c : Call) : Effect b u c u
  | creat {pinum : Int} {type : Word} {name : CString} {stk : Stack} {inum : Nat} {r : Creat} {w : Ufs}
      (creatable : u.Creatable b pinum name inum)
      (created : Created b u pinum.toNat inum type name stk r w) : Effect b u (.creat pinum type name stk) w
  | write {inum offset nbytes r : Int} {buf : Nat → Byte} {w : Ufs} (writable : u.Writable inum offset nbytes)
      (wrote : Wrote u inum.toNat buf offset.toNat nbytes.toNat r w) : Effect b u (.write inum buf offset nbytes) w
  | unlink {pinum : Int} {name : CString} {stk : Stack} {inum : Nat} {w : Ufs}
      (removable : u.Removable b pinum name inum)
      (unlinked : Unlinked b u pinum.toNat inum name stk w) : Effect b u (.unlink pinum name stk) w

section Call

variable {b : Build} {u w : Ufs} {c : Call} (sound : u.Sound b) (placed : u.Placed)
include sound placed

theorem call_effect (returned : call b u c = .ok w) : Effect b u c w := by
  cases c with
  | creat pinum type name stk =>
    obtain ⟨⟨r, v⟩, run, last⟩ := Runs.bind_ok.mp returned
    cases Except.ok.inj last
    rcases ufsCreat_cases sound placed run with ⟨_, rfl⟩ | ⟨inum, creatable, created⟩
    · exact .none _
    · exact .creat creatable created
  | write inum buf offset nbytes =>
    obtain ⟨⟨r, v⟩, run, last⟩ := Runs.bind_ok.mp returned
    cases Except.ok.inj last
    by_cases writable : u.Writable inum offset nbytes
    · obtain ⟨r', w', run', wrote⟩ := ufsWrite_spec buf sound placed writable
      rw [run] at run'
      obtain ⟨rfl, rfl⟩ := Prod.mk.inj (Except.ok.inj run')
      exact .write writable wrote
    · rw [ufsWrite_unwritable writable] at run
      obtain ⟨rfl, rfl⟩ := Prod.mk.inj (Except.ok.inj run)
      exact .none _
  | read inum buffer offset nbytes =>
    obtain ⟨out, run, last⟩ := Runs.bind_ok.mp returned
    cases Except.ok.inj last
    exact .none _
  | lookup pinum name =>
    obtain ⟨out, run, last⟩ := Runs.bind_ok.mp returned
    cases Except.ok.inj last
    exact .none _
  | unlink pinum name stk =>
    obtain ⟨⟨r, v⟩, run, last⟩ := Runs.bind_ok.mp returned
    cases Except.ok.inj last
    rcases ufsUnlink_cases sound placed run with ⟨_, rfl⟩ | ⟨_, inum, removable, unlinked⟩
    · exact .none _
    · exact .unlink removable unlinked

omit sound placed in
theorem Wrote.allocates {inum n start : Nat} {buf : Nat → Byte} {r : Int}
    (wrote : Wrote u inum buf start n r w) : Allocates True u w := by
  cases wrote with
  | all writing => exact writing.allocates
  | full writing => exact writing.allocates

/-- A call keeps the superblock, the disk's length and the pointers in the data
region, and what it changes is marked or committed. -/
theorem Effect.settled (effect : Effect b u c w) :
    w.s = u.s ∧ w.disk.len = u.disk.len ∧ w.Placed ∧ (Marked u w ∨ Flushed u w) := by
  cases effect with
  | none => exact ⟨rfl, rfl, placed, Or.inl (.refl u)⟩
  | creat creatable created =>
    have free := emptyPosInode_some creatable.found
    obtain ⟨step, settled⟩ := created.settled sound placed creatable.live free.1 free.2
    exact ⟨step.s, step.len, step.placed placed, settled.imp And.right And.right⟩
  | write writable wrote =>
    have step := wrote.allocates
    refine ⟨step.s, step.len, step.placed placed, ?_⟩
    cases wrote with
    | all _ _ _ marked committed => exact Or.inr ⟨_, marked, committed⟩
    | full _ _ _ _ marked => exact Or.inl marked
  | unlink removable unlinked =>
    exact ⟨unlinked.s.1, unlinked.s.2.1, unlinked.placed placed, Or.inr (unlinked.flushed placed)⟩

end Call

theorem Effect.sound {b : Build} {u w : Ufs} {c : Call} (sound : u.Sound b) (placed : u.Placed)
    (effect : Effect b u c w) : w.Sound b := by
  obtain ⟨s, len, _⟩ := effect.settled sound placed
  rw [Ufs.Sound, s, len]
  exact sound

end Icix
