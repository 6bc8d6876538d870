import Icix.Fs.Effect
import Icix.Fs.Mount

/-! Block ownership over runs with ufs_unlink. It keeps as long as no unlink frees
an address that, as an index of the data bitmap, is the bit of a live block. -/
namespace Icix
open Bytes Ownership Runs

/-- The slots that unlinking a name gives up: those of the inode it names, and the
parent's slot whose block has no other entry. -/
def Ufs.GivesUp (b : Build) (u : Ufs) (pinum : Nat) (name : CString) (slot : Nat × Nat) : Prop :=
  ufsLookup b u pinum name = .ok slot.1 ∨
  slot.1 = pinum ∧ u.Missing pinum name slot.2 ∧
    ∃ j, scanBlock (u.block pinum slot.2) name 128 (none, 0) = .ok (some j, 1)

/-- No address that an unlink frees is, as an index of the data bitmap, that of a
block which a slot keeps. -/
def Harmless (b : Build) (u : Ufs) : Call → Prop
  | .unlink pinum name _ => ∀ inum, u.Removable b pinum name inum → ∀ freed kept (k : Nat),
      u.GivesUp b pinum.toNat name freed → ¬ u.GivesUp b pinum.toNat name kept →
      (u.inodes freed.1).ptr freed.2 ≠ -1 → SameBit ((u.inodes freed.1).ptr freed.2).toInt k →
      u.ref kept ≠ some (u.s.dr + k)
  | _ => True

section Unlink

variable {b : Build} {u w : Ufs} {pinum inum : Nat} {name : CString} {stk : Stack}
  (unlinked : Unlinked b u pinum inum name stk w)
include unlinked

/-- The bits that an unlink clears are at addresses that it gives up. -/
theorem Unlinked.clears {k : Nat} (set : getBitmap u.dataBp k = true) (clear : getBitmap w.dataBp k ≠ true) :
    ∃ slot, u.GivesUp b pinum name slot ∧ (u.inodes slot.1).ptr slot.2 ≠ -1 ∧
      SameBit ((u.inodes slot.1).ptr slot.2).toInt k := by
  have named : Cleared u inum k → ∃ slot, u.GivesUp b pinum name slot ∧ (u.inodes slot.1).ptr slot.2 ≠ -1 ∧
      SameBit ((u.inodes slot.1).ptr slot.2).toInt k :=
    fun ⟨c, real, same⟩ => ⟨(inum, c), Or.inl unlinked.found, real, same⟩
  cases unlinked.removed with
  | @block a j ha before real scan ptr bits =>
    rw [ne_eq, bits, not_and_or, not_and_or, not_not, not_not] at clear
    rcases clear with bad | cleared | same
    · exact absurd set bad
    · exact named cleared
    · exact ⟨(pinum, a), Or.inr ⟨rfl, before, j, scan⟩, real, same⟩
  | entry ha before real scan more ptr bits =>
    rw [ne_eq, bits, not_and_or, not_not] at clear
    exact named (clear.resolve_left (not_not.mpr set))
  | nowhere missing ptr bits =>
    rw [ne_eq, bits, not_and_or, not_not] at clear
    exact named (clear.resolve_left (not_not.mpr set))

/-- A slot that still holds a block after the unlink was not given up. -/
theorem Unlinked.keeps {slot : Nat × Nat} {d : Nat} (held : w.ref slot = some d) :
    u.ref slot = some d ∧ ¬ u.GivesUp b pinum name slot := by
  obtain ⟨i, a⟩ := slot
  obtain ⟨live, real, value⟩ := ref_eq_some.mp held
  obtain ⟨other, liveU⟩ := (unlinked.allocated i).mp live
  have same : (w.inodes i).ptr a = (u.inodes i).ptr a := by
    by_cases parent : i = pinum
    · subst i
      exact unlinked.inodes.2.2.2 a real
    · rw [unlinked.inodes.1 i parent]
  refine ⟨ref_eq_some.mpr ⟨liveU, same ▸ real, same ▸ value⟩, ?_⟩
  rintro (named | ⟨parent, missing, j, scan⟩)
  · rw [unlinked.found] at named
    exact other (by have := Except.ok.inj named; omega)
  · dsimp only at parent missing scan
    subst i
    have realU : (u.inodes pinum).ptr a ≠ -1 := same ▸ real
    have inside := Inode.ptr_lt realU
    have first : ∀ c, u.Missing pinum name c → (u.inodes pinum).ptr c ≠ -1 →
        (∃ j cnt, scanBlock (u.block pinum c) name 128 (none, 0) = .ok (some j, cnt)) → c = a := by
      rintro c before realC ⟨j', cnt, scan'⟩
      rcases Nat.lt_trichotomy c a with lt | eq | gt
      · obtain ⟨_, none⟩ := missing c lt realC
        rw [scan'] at none
        cases none
      · exact eq
      · obtain ⟨_, none⟩ := before a gt realU
        rw [scan] at none
        cases none
    cases unlinked.removed with
    | @block c j' hc before realC scan' ptr =>
      rw [ptr, if_pos (first c before realC ⟨j', 1, scan'⟩).symm] at real
      exact real rfl
    | @entry c j' cnt hc before realC scan' more =>
      rw [first c before realC ⟨j', cnt, scan'⟩, scan] at scan'
      cases scan'
      exact more rfl
    | nowhere none =>
      obtain ⟨_, none⟩ := none a inside realU
      rw [scan] at none
      cases none

end Unlink

theorem Unlinked.owned {b : Build} {u w : Ufs} {pinum : Int} {inum : Nat} {name : CString} {stk : Stack}
    (unlinked : Unlinked b u pinum.toNat inum name stk w) (removable : u.Removable b pinum name inum)
    (harmless : Harmless b u (.unlink pinum name stk)) (owned : u.Owned) : w.Owned := by
  have sub : Sub w.ref u.ref := fun slot d held => (unlinked.keeps held).1
  refine ⟨owned.exclusive.sub sub, owned.covered.release sub ?_⟩
  rintro d ⟨k, hk, rfl, set⟩ lost slot held
  have clear : getBitmap w.dataBp k ≠ true := fun bit => lost ⟨k, unlinked.s.1 ▸ hk, by rw [unlinked.s.1], bit⟩
  obtain ⟨freed, given, real, same⟩ := unlinked.clears set clear
  obtain ⟨heldU, kept⟩ := unlinked.keeps held
  exact harmless inum removable freed slot k given kept real same heldU

theorem Effect.owned {b : Build} {u w : Ufs} {c : Call} (sound : u.Sound b) (owned : u.Owned)
    (harmless : Harmless b u c) (effect : Effect b u c w) : w.Owned := by
  cases effect with
  | none => exact owned
  | creat creatable created =>
    have free := emptyPosInode_some creatable.found
    exact (created.settled sound owned.placed creatable.live free.1 free.2).1.owned owned
  | write writable wrote => exact wrote.allocates.owned owned
  | @unlink pinum name stk inum w removable unlinked =>
    exact unlinked.owned removable harmless owned

/-- What runs keep whose unlinks are harmless. -/
theorem Run.owned {b : Build} {u₀ u : Ufs} {stk : Stack} {calls : List Call} (fresh : u₀.Fresh b stk)
    (run : Run (call b) (Harmless b) u₀ calls u) : u.Sound b ∧ u.Owned := by
  refine run.invariant (fun v => v.Sound b ∧ v.Owned) ?_ ⟨fresh.sound, fresh.owned⟩
  rintro v c w ⟨sound, owned⟩ harmless returned
  have effect := call_effect sound owned.placed returned
  exact ⟨effect.sound sound owned.placed, effect.owned sound owned harmless⟩

/-- Over every run whose unlinks are harmless, no block is held by two slots and
every held block is marked used. -/
theorem blocks_exclusive {b : Build} {numInodes numData : Int} {stk : MkfsStack} {d : Disk}
    {dirtyInodeBp dirtyDataBp : Bitmap} {u₀ u : Ufs} {calls : List Call}
    (small : 4096 * imageBlocks numInodes.toNat numData.toNat < 2147483648)
    (formatted : mkfs numInodes numData stk = .ok d)
    (mounted : ufsInit b d 0 dirtyInodeBp dirtyDataBp = .ok u₀)
    (run : Run (call b) (Harmless b) u₀ calls u) : Exclusive u.ref ∧ Covered u.ref u.used := by
  have kept := Run.owned (fresh_of_mount small formatted mounted) run
  exact ⟨kept.2.exclusive, kept.2.covered⟩

/- A file with a block is made and removed: bit 5 is cleared, and no file has block 9. -/
theorem blocks_exclusive_smallest : ∃ u, Run (call .host) (Harmless .host) smallest
    [.creat 0 1 (letter 97 (by decide)) zeros, .write 1 (fun _ => 7) 0 2, .unlink 0 (letter 97 (by decide)) zeros] u ∧
      Exclusive u.ref ∧ Covered u.ref u.used := by
  obtain ⟨u, run, check⟩ := run_of_check (call .host) (Harmless .host) (fun _ c => !c.removes) smallest
    [.creat 0 1 (letter 97 (by decide)) zeros, .write 1 (fun _ => 7) 0 2]
    (fun u => decide ((ufsUnlink .host u 0 (letter 97 (by decide)) zeros).map Prod.fst = .ok 0) &&
      decide (ufsLookup .host u 0 (letter 97 (by decide)) = .ok 1) &&
      decide (scanBlock (u.block 0 0) (letter 97 (by decide)) 128 (none, 0) = .ok (some 2, 3)) &&
      (decide (u.s.ni = 32) && decide (u.s.dr = 4) && decide ((u.inodes 1).ptr 0 = 5)) &&
      (List.range 30).all (fun a => decide ((u.inodes 1).ptr (a + 1) = -1) && decide ((u.inodes 0).ptr (a + 1) = -1)) &&
      (List.range 32).all fun i => (List.range 30).all fun a => decide ((u.inodes i).ptr a ≠ 9))
    (fun _ c test => by cases c with | unlink => cases test | _ => trivial) (by decide +kernel)
  simp only [Bool.and_eq_true, decide_eq_true_eq, List.all_eq_true, List.mem_range] at check
  obtain ⟨⟨⟨⟨⟨unlink, lookup⟩, scan⟩, ⟨many, region⟩, block⟩, empty⟩, other⟩ := check
  obtain ⟨⟨r, w⟩, unlinked, rfl⟩ := map_ok.mp unlink
  have harmless : Harmless .host u (.unlink 0 (letter 97 (by decide)) zeros) := by
    rintro inum _ ⟨i, a⟩ ⟨i', a'⟩ k given _ real same held
    have five : i = 1 ∧ a = 0 := by
      rcases given with named | ⟨parent, _, j, only⟩
      · have target : i = 1 := by
          have same := Except.ok.inj (named.symm.trans lookup)
          dsimp only at same
          omega
        subst i
        cases a with
        | zero => exact ⟨rfl, rfl⟩
        | succ a => exact absurd (empty a (Nat.lt_of_succ_lt (Inode.ptr_lt real))).1 real
      · dsimp only at parent only real
        subst i
        cases a with
        | zero =>
          rw [Int.toNat_zero, scan] at only
          cases only
        | succ a => exact absurd (empty a (Nat.lt_of_succ_lt (Inode.ptr_lt real))).2 real
    obtain ⟨rfl, rfl⟩ := five
    dsimp only at same
    rw [block] at same
    have bit : k = 5 := (sameBit_nat 5 k).mp same
    subst bit
    obtain ⟨live, real', value⟩ := ref_eq_some.mp (region ▸ held)
    exact other i' (many ▸ live.1) a' (Inode.ptr_lt real') (BitVec.eq_of_toNat_eq value)
  have returned : call .host u (.unlink 0 (letter 97 (by decide)) zeros) = .ok w := by
    rw [call, unlinked]
    rfl
  have whole := run.append (.cons harmless returned (.nil w))
  exact ⟨w, whole, blocks_exclusive (by decide) smallest_formatted (smallest_mounted .host) whole⟩

/-- The data region of the smallest image starts at block 4. The first of five
directories has block 5, and removing it clears bit 5, which is that of block 9. -/
theorem unlink_clears_live_block : ∃ u, Run (call .host) (fun _ _ => True) smallest
    [.creat 0 0 (letter 97 (by decide)) zeros, .creat 0 0 (letter 98 (by decide)) zeros,
      .creat 0 0 (letter 99 (by decide)) zeros, .creat 0 0 (letter 100 (by decide)) zeros,
      .creat 0 0 (letter 101 (by decide)) zeros, .unlink 0 (letter 97 (by decide)) zeros] u ∧
    mkfs 32 32 ⟨fun _ => 0, zeros⟩ = .ok smallestDisk ∧
    ufsInit .host smallestDisk 0 (fun _ => 0) (fun _ => 0) = .ok smallest ∧
    u.ref (5, 0) = some 9 ∧ ¬ Covered u.ref u.used := by
  obtain ⟨u, run, check⟩ := run_of_check (call .host) (fun _ _ => True) (fun _ _ => true) smallest
    [.creat 0 0 (letter 97 (by decide)) zeros, .creat 0 0 (letter 98 (by decide)) zeros,
      .creat 0 0 (letter 99 (by decide)) zeros, .creat 0 0 (letter 100 (by decide)) zeros,
      .creat 0 0 (letter 101 (by decide)) zeros, .unlink 0 (letter 97 (by decide)) zeros]
    (fun u => decide (u.allocated 5) && decide ((u.inodes 5).ptr 0 = 9) && decide (u.s.dr = 4) &&
      !getBitmap u.dataBp 5) (fun _ _ _ => trivial) (by decide +kernel)
  simp only [Bool.and_eq_true, decide_eq_true_eq, Bool.not_eq_true'] at check
  obtain ⟨⟨⟨live, ptr⟩, region⟩, clear⟩ := check
  have held : u.ref (5, 0) = some 9 := ref_eq_some.mpr ⟨live, by rw [ptr]; decide, by rw [ptr]; rfl⟩
  refine ⟨u, run, smallest_formatted, smallest_mounted .host, held, fun covered => ?_⟩
  obtain ⟨k, _, value, bit⟩ := covered (5, 0) 9 held
  have index : k = 5 := by omega
  rw [index] at bit
  exact Bool.noConfusion (bit.symm.trans clear)

end Icix
