import Icix.Fs.Effect
import Icix.Fs.Mount

/-! Memory and disk over runs of all calls: every difference is covered by a dirty
bit, and after a commit there is none, so that mounting again gives the same. -/
namespace Icix
open Bytes Ownership Runs

/-- The calls that run commit_dirty_to_disk to its end. -/
def Commits (b : Build) (u : Ufs) : Call → Prop
  | .creat pinum type name stk => ∃ w, ufsCreat b u pinum type name stk = .ok (.committed, w)
  | .write inum buf offset nbytes => ∃ w, ufsWrite b u inum buf offset nbytes = .ok (0, w)
  | .unlink pinum name stk => ∃ w, ufsUnlink b u pinum name stk = .ok (0, w)
  | .read .. => False
  | .lookup .. => False

theorem commits_flushed {b : Build} {u w : Ufs} {c : Call} (sound : u.Sound b) (placed : u.Placed)
    (returned : call b u c = .ok w) (commits : Commits b u c) : Flushed u w := by
  cases c with
  | creat pinum type name stk =>
    obtain ⟨v, run⟩ := commits
    simp only [call, run, ok_bind] at returned
    cases Except.ok.inj returned
    rcases ufsCreat_cases sound placed run with ⟨failed, _⟩ | ⟨inum, creatable, created⟩
    · cases failed
    · have free := emptyPosInode_some creatable.found
      rcases (created.settled sound placed creatable.live free.1 free.2).2 with ⟨failed, _⟩ | ⟨_, flushed⟩
      · cases failed
      · exact flushed
  | write inum buf offset nbytes =>
    obtain ⟨v, run⟩ := commits
    simp only [call, run, ok_bind] at returned
    cases Except.ok.inj returned
    by_cases writable : u.Writable inum offset nbytes
    · obtain ⟨r, w', run', wrote⟩ := ufsWrite_spec buf sound placed writable
      rw [run] at run'
      obtain ⟨rfl, rfl⟩ := Prod.mk.inj (Except.ok.inj run')
      generalize zero : (0 : Int) = r at wrote
      cases wrote with
      | all _ _ _ marked committed => exact ⟨_, marked, committed⟩
      | full => cases zero
    · rw [ufsWrite_unwritable writable] at run
      cases run
  | unlink pinum name stk =>
    obtain ⟨v, run⟩ := commits
    simp only [call, run, ok_bind] at returned
    cases Except.ok.inj returned
    rcases ufsUnlink_cases sound placed run with ⟨failed, _⟩ | ⟨_, inum, _, unlinked⟩
    · cases failed
    · exact unlinked.flushed placed
  | read => exact absurd commits id
  | lookup => exact absurd commits id

/-- The invariant of every run: what a mounted state and its disk agree on. -/
structure Ufs.Steady (b : Build) (u : Ufs) : Prop where
  sound : u.Sound b
  inodes_pos : 0 < u.s.ni
  blocks_pos : 0 < u.s.nd
  outside : 4096 ≤ u.s.ib ∧ 4096 ≤ u.s.db ∧ 4096 ≤ u.s.it ∧ 1 ≤ u.s.dr
  header : ∀ x < 40, u.disk.byte x = u.s.bytes x
  placed : u.Placed
  tracked : u.Tracked

theorem Ufs.Fresh.steady {b : Build} {u : Ufs} {stk : Stack} (fresh : u.Fresh b stk) : u.Steady b where
  sound := fresh.sound
  inodes_pos := Nat.lt_of_lt_of_le (Nat.succ_pos 31) fresh.inodes_pos
  blocks_pos := Nat.lt_of_lt_of_le (Nat.succ_pos 31) fresh.blocks_pos
  outside := fresh.outside
  header := fresh.header
  placed := fresh.owned.placed
  tracked := fresh.tracked

/- The superblock's bytes are in no region that a call writes. -/
theorem Ufs.Steady.header_outside {b : Build} {u : Ufs} (steady : u.Steady b) {x : Nat} (hx : x < 40) :
    ¬ u.s.InData x ∧ ¬ u.s.InMeta x := by
  have outside := steady.outside
  unfold Super.InData Super.InMeta Super.InInodeBitmap Super.InDataBitmap Super.InInodeTable
  omega

theorem Marked.header {b : Build} {u v : Ufs} (steady : u.Steady b) (step : Marked u v) :
    ∀ x < 40, v.disk.byte x = v.s.bytes x := by
  intro x hx
  rw [step.s, step.outside x (steady.header_outside hx).1]
  exact steady.header x hx

theorem Ufs.Steady.call {b : Build} {u w : Ufs} {c : Call} (steady : u.Steady b)
    (returned : Icix.call b u c = .ok w) : w.Steady b := by
  have effect := call_effect steady.sound steady.placed returned
  obtain ⟨s, len, placed, settled⟩ := effect.settled steady.sound steady.placed
  refine ⟨effect.sound steady.sound steady.placed, s ▸ steady.inodes_pos, s ▸ steady.blocks_pos,
    s ▸ steady.outside, ?_, placed, ?_⟩
  · rcases settled with marked | ⟨v, marked, committed⟩
    · exact marked.header steady
    · intro x hx
      have before := marked.header steady x hx
      rw [committed.step.s, ← before]
      exact committed.step.outside x (marked.s.symm ▸ (steady.header_outside hx).2)
  · rcases settled with marked | ⟨v, marked, committed⟩
    · exact marked.tracked steady.sound steady.tracked
    · exact committed.tracked (marked.tracked steady.sound steady.tracked)

/-- A disk that agrees with memory mounts to the same superblock, bits and inodes. -/
theorem Ufs.Steady.remount {b : Build} {u : Ufs} (steady : u.Steady b) (synced : u.Synced)
    (dirtyInodeBp dirtyDataBp : Bitmap) : ∃ v, ufsInit b u.disk 0 dirtyInodeBp dirtyDataBp = .ok v ∧
      v.s = u.s ∧ (∀ i : Nat, i < u.s.ni → getBitmap v.inodeBp i = getBitmap u.inodeBp i) ∧
      (∀ k : Nat, k < u.s.nd → getBitmap v.dataBp k = getBitmap u.dataBp k) ∧
      ∀ i : Nat, i < u.s.ni → v.inodes i = u.inodes i := by
  have table := steady.sound.inodeTable_le
  have outside := steady.outside
  have again := mounted_synced u.disk u.s dirtyInodeBp dirtyDataBp
  exact ⟨_, ufsInit_ok (by omega) steady.header steady.sound steady.inodes_pos steady.blocks_pos _ _, rfl,
    synced.inodeBit, synced.dataBit, fun i hi => (again.inode i hi).symm.trans (synced.inode i hi)⟩

/-- Over every run of calls from a mounted image, what differs between memory and
disk has its dirty bit set, and a call that commits leaves a disk that mounts to
what memory holds. -/
theorem dirty_bits_cover {b : Build} {numInodes numData : Int} {stk : MkfsStack} {d : Disk}
    {dirtyInodeBp dirtyDataBp : Bitmap} {u₀ u : Ufs} {calls : List Call}
    (small : 4096 * imageBlocks numInodes.toNat numData.toNat < 2147483648)
    (formatted : mkfs numInodes numData stk = .ok d)
    (mounted : ufsInit b d 0 dirtyInodeBp dirtyDataBp = .ok u₀)
    (run : Run (call b) (fun _ _ => True) u₀ calls u) :
    u.Tracked ∧ ∀ c w, call b u c = .ok w → Commits b u c → w.Synced ∧
      ∀ dirtyInodeBp dirtyDataBp, ∃ v, ufsInit b w.disk 0 dirtyInodeBp dirtyDataBp = .ok v ∧ v.s = w.s ∧
        (∀ i : Nat, i < w.s.ni → getBitmap v.inodeBp i = getBitmap w.inodeBp i) ∧
        (∀ k : Nat, k < w.s.nd → getBitmap v.dataBp k = getBitmap w.dataBp k) ∧
        ∀ i : Nat, i < w.s.ni → v.inodes i = w.inodes i := by
  have fresh := fresh_of_mount small formatted mounted
  have steady := run.invariant (Ufs.Steady b) (fun _ _ _ steady _ returned => steady.call returned) fresh.steady
  refine ⟨steady.tracked, fun c w returned commits => ?_⟩
  obtain ⟨v, marked, committed⟩ := commits_flushed steady.sound steady.placed returned commits
  have synced := committed.synced (marked.tracked steady.sound steady.tracked)
  exact ⟨synced, (steady.call returned).remount synced⟩

theorem dirty_bits_cover_smallest : ∃ u, Run (call .kernel) (fun _ _ => True) smallest
    [.creat 0 1 (letter 97 (by decide)) zeros, .write 1 (fun _ => 7) 0 2, .unlink 0 (letter 97 (by decide)) zeros,
      .creat 0 0 (letter 98 (by decide)) zeros] u ∧ u.Tracked := by
  obtain ⟨u, run, _⟩ := run_of_check (call .kernel) (fun _ _ => True) (fun _ _ => true) smallest
    [.creat 0 1 (letter 97 (by decide)) zeros, .write 1 (fun _ => 7) 0 2, .unlink 0 (letter 97 (by decide)) zeros,
      .creat 0 0 (letter 98 (by decide)) zeros] (fun _ => true) (fun _ _ _ => trivial) (by decide +kernel)
  exact ⟨u, run, (dirty_bits_cover (by decide) smallest_formatted (smallest_mounted .kernel) run).1⟩

end Icix
