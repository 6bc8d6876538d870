import Icix.Fs.Release

/-! The contents of files after a write, and their sizes over runs of all calls. A
write adds what it has written to the size, so the size is the file's length as
long as writes start at its end. -/
namespace Icix
open Bytes Ownership Runs

section WriteRead

variable {b : Build} {u v : Ufs} {inum offset nbytes : Int} {buf : Nat → Byte}
  (owned : u.Owned) (writable : u.Writable inum offset nbytes)
  (writing : Writing u inum.toNat buf offset.toNat nbytes.toNat v)
  (grown : (v.inodes inum.toNat).size.toInt = (u.inodes inum.toNat).size.toInt + nbytes)
  (soundV : v.Sound b) (ownedV : v.Owned)
include owned writable writing grown soundV ownedV

/-- What was written is read back. -/
theorem Writing.readBack (blocks : offset + nbytes ≤ 122880) (buffer : Nat → Byte) :
    ∃ out, ufsRead b v inum buffer offset nbytes = .ok (0, out) ∧ ∀ k < nbytes.toNat, out k = buf k := by
  have low := writable.offset_nonneg
  have positive := writable.nbytes_pos
  have sizeLe := writable.offset_le
  have header : v.s = u.s := writing.allocates.s
  have readable : v.Readable inum offset nbytes := by
    refine ⟨writable.low, header ▸ writable.high, writing.inodeBp ▸ writable.bit, low, positive, ?_, ?_⟩
    · rw [int32_eq (by omega) (by omega)]
      omega
    · intro dir
      rw [writing.type, writable.regular] at dir
      cases dir
  refine ⟨_, ufsRead_ok soundV ownedV.placed readable (fun k _ high _ => writing.mapped k high), ?_⟩
  intro k hk
  unfold Ufs.filled
  rw [if_pos (by omega)]
  exact writing.written owned k hk

omit owned soundV ownedV in
/-- A range that could be read before the write can be read after it. -/
theorem Writing.readable {j off n : Int} (readable : u.Readable j off n) : v.Readable j off n := by
  have positive := writable.nbytes_pos
  have jLow := readable.low
  have inumLow := writable.low
  have header : v.s = u.s := writing.allocates.s
  refine ⟨jLow, header ▸ readable.high, writing.inodeBp ▸ readable.bit, readable.offset_nonneg,
    readable.nbytes_pos, ?_, ?_⟩
  -- the file that was written has grown, and no other inode has changed
  · have before := readable.size
    by_cases same : j = inum
    · subst j
      omega
    · rw [writing.other _ (by omega)]
      exact before
  · by_cases same : j = inum
    · subst j
      rw [writing.type]
      exact readable.aligned
    · rw [writing.other _ (by omega)]
      exact readable.aligned

/-- A read of bytes that were not written is served as before. -/
theorem Writing.serves (sound : u.Sound b) {j off n : Int} {buffer out : Nat → Byte}
    (apart : j ≠ inum ∨ off + n ≤ offset ∨ offset + nbytes ≤ off)
    (served : ufsRead b u j buffer off n = .ok (0, out)) : ufsRead b v j buffer off n = .ok (0, out) := by
  obtain ⟨readable, mapped, rfl⟩ := ufsRead_zero sound owned.placed served
  have low := writable.offset_nonneg
  have offLow := readable.offset_nonneg
  have jLow := readable.low
  have inumLow := writable.low
  have mappedV : (v.inodes j.toNat).mapped off.toNat 0 n.toNat := by
    intro k zero high limit
    have real := mapped k zero high limit
    rw [writing.held real]
    exact real
  rw [ufsRead_ok soundV ownedV.placed (writing.readable writable grown readable) mappedV]
  congr 2
  funext k
  unfold Ufs.filled
  split
  · rename_i range
    refine writing.kept owned j.toNat _ readable.allocated (mapped k range.1 range.2.1 range.2.2) ?_
    intro same
    omega
  · rfl

end WriteRead

/-- After a write that returned 0, reading the range back gives the buffer, every
read served before that does not overlap it is served with the same bytes, and the
state is block-exclusive again. -/
theorem write_read_frame {b : Build} {u v : Ufs} {inum offset nbytes : Int} {buf : Nat → Byte}
    (sound : u.Sound b) (owned : u.Owned) (returned : ufsWrite b u inum buf offset nbytes = .ok (0, v))
    (blocks : offset + nbytes ≤ 122880)
    (small : (u.inodes inum.toNat).size.toInt + nbytes < 2147483648) :
    (∀ buffer, ∃ out, ufsRead b v inum buffer offset nbytes = .ok (0, out) ∧
      ∀ k < nbytes.toNat, out k = buf k) ∧
    (∀ j buffer off n out, j ≠ inum ∨ off + n ≤ offset ∨ offset + nbytes ≤ off → off + n ≤ 122880 →
      ufsRead b u j buffer off n = .ok (0, out) → ufsRead b v j buffer off n = .ok (0, out)) ∧
    v.Sound b ∧ v.Owned := by
  obtain ⟨writable, writing⟩ := ufsWrite_zero sound owned.placed returned blocks
  have low := writable.offset_nonneg
  have positive := writable.nbytes_pos
  have sizeLe := writable.offset_le
  have soundV := writing.allocates.sound sound
  have ownedV := writing.allocates.owned owned
  have grown : (v.inodes inum.toNat).size.toInt = (u.inodes inum.toNat).size.toInt + nbytes := by
    rw [writing.size_toInt (by omega) (by omega), Int.toNat_of_nonneg (by omega)]
  exact ⟨writing.readBack owned writable grown soundV ownedV blocks,
    fun _ _ _ _ _ apart _ served => writing.serves owned writable grown soundV ownedV sound apart served,
    soundV, ownedV⟩

theorem write_read_frame_smallest : ∃ u v, u.Sound .host ∧ u.Owned ∧
    ufsWrite .host u 1 (fun k => if k = 0 then 7 else 8) 0 2 = .ok (0, v) ∧
    ∃ out, ufsRead .host v 1 (fun _ => 0) 0 2 = .ok (0, out) ∧ out 0 = 7 ∧ out 1 = 8 := by
  have check : (match call .host smallest (.creat 0 1 (letter 97 (by decide)) zeros) with
    | .ok u => decide ((u.inodes 1).size.toInt = 0) &&
        (match ufsWrite .host u 1 (fun k => if k = 0 then 7 else 8) 0 2 with
        | .ok (r, _) => decide (r = 0)
        | .error _ => false)
    | .error _ => false) = true := by decide +kernel
  split at check
  · rename_i u made
    rw [Bool.and_eq_true, decide_eq_true_eq] at check
    obtain ⟨size, check⟩ := check
    split at check
    · rename_i r v write
      cases of_decide_eq_true check
      have fresh := smallest_fresh .host
      have effect := call_effect fresh.sound fresh.owned.placed made
      have sound := effect.sound fresh.sound fresh.owned.placed
      have harmless : Harmless .host smallest (.creat 0 1 (letter 97 (by decide)) zeros) := trivial
      have owned := effect.owned fresh.sound fresh.owned harmless
      have short : (u.inodes (1 : Int).toNat).size.toInt + 2 < 2147483648 := by
        change (u.inodes 1).size.toInt + 2 < 2147483648
        omega
      have frame := write_read_frame sound owned write (by decide) short
      obtain ⟨out, read, bytes⟩ := frame.1 fun _ => 0
      exact ⟨u, v, sound, owned, write, out, read, bytes 0 (by decide), bytes 1 (by decide)⟩
    · cases check
  · cases check

/-- Writes that pass their checks start at the end of the file; and no creation
leaves behind, in a directory that is as large as it can be, an inode for a regular
file whose old size is not 0. -/
def Appends (b : Build) (u : Ufs) : Call → Prop
  | .write inum _ offset nbytes => u.Writable inum offset nbytes → (u.inodes inum.toNat).size.toInt = offset
  | .creat pinum type name _ => ∀ inum, u.Creatable b pinum name inum → type = ufsRegularFile →
      (u.inodes pinum.toNat).size = 122880 → (u.inodes inum).size.toInt ≤ 0
  | _ => True

/- A test for such calls: the directory of a creation is not of maximal size. -/
def appends (u : Ufs) : Call → Bool
  | .write inum _ offset _ => decide ((u.inodes inum.toNat).size.toInt = offset)
  | .creat pinum .. => decide ((u.inodes pinum.toNat).size ≠ 122880)
  | _ => true

theorem appends_of_test {b : Build} {u : Ufs} {c : Call} (test : appends u c = true) : Appends b u c := by
  cases c with
  | write => exact fun _ => of_decide_eq_true test
  | creat => exact fun _ _ _ max => absurd max (of_decide_eq_true test)
  | _ => trivial

/-- Every regular file has a block for each slot that its size covers. -/
def Ufs.Complete (u : Ufs) : Prop :=
  ∀ i, u.allocated i → (u.inodes i).type = ufsRegularFile →
    ∀ a : Nat, 4096 * (a : Int) < (u.inodes i).size.toInt → (u.inodes i).ptr a ≠ -1

theorem Ufs.Complete.size_le {u : Ufs} (complete : u.Complete) {i : Nat} (live : u.allocated i)
    (regular : (u.inodes i).type = ufsRegularFile) : (u.inodes i).size.toInt ≤ 122880 := by
  by_contra large
  have real := complete i live regular 30 (by omega)
  exact absurd (Inode.ptr_lt real) (by decide)

theorem Ufs.Fresh.complete {b : Build} {u : Ufs} {stk : Stack} (fresh : u.Fresh b stk) : u.Complete := by
  intro i live regular
  rw [(fresh.allocated i).mp live, fresh.root] at regular
  cases regular

theorem Writing.complete {u w : Ufs} {i start cur : Nat} {buf : Nat → Byte} (complete : u.Complete)
    (live : u.allocated i) (regular : (u.inodes i).type = ufsRegularFile)
    (writing : Writing u i buf start cur w) (le : cur ≤ 4096)
    (append : (u.inodes i).size.toInt = start) : w.Complete := by
  have small := complete.size_le live regular
  have size := writing.size_toInt (by omega) (by omega)
  intro j liveW regularW a inside
  have liveU := (writing.allocated j).mp liveW
  by_cases same : j = i
  · subst j
    by_cases old : 4096 * (a : Int) < (u.inodes i).size.toInt
    · have real := complete i live regular a old
      exact writing.held real ▸ real
    · have block : (start + (4096 * a - start)) / 4096 = a := by omega
      exact block ▸ writing.mapped (4096 * a - start) (by omega)
  · rw [writing.other j same] at regularW inside ⊢
    exact complete j liveU regularW a inside

theorem Effect.complete {b : Build} {u w : Ufs} {c : Call} (appends : Appends b u c)
    (complete : u.Complete) (effect : Effect b u c w) : w.Complete := by
  cases effect with
  | none => exact complete
  | @creat pinum type name stk inum r w creatable created =>
    obtain ⟨hi, clear⟩ := emptyPosInode_some creatable.found
    obtain ⟨claimed, file⟩ := created.claimed creatable.live clear
    intro j live regular a inside
    by_cases new : j = inum
    · subst j
      have type : type = ufsRegularFile := claimed.symm.trans regular
      have size : (w.inodes inum).size.toInt ≤ 0 := by
        rcases (file (by rw [type]; decide)).2 with zero | ⟨max, stale⟩
        · rw [zero]
          decide
        · rw [stale]
          exact appends inum creatable type max
      omega
    · by_cases parent : j = pinum.toNat
      · rw [parent, created.parent_type creatable.live clear, creatable.dir] at regular
        cases regular
      · have liveU := ((created.allocated hi j).mp live).resolve_left new
        rw [created.other new parent] at regular inside ⊢
        exact complete j liveU regular a inside
  | @write inum offset nbytes r buf w writable wrote =>
    have append := appends writable
    have start := writable.offset_nonneg
    have count := writable.nbytes_le
    cases wrote with
    | all writing le =>
      exact writing.complete complete writable.allocated writable.regular (by omega) (by omega)
    | full writing less =>
      exact writing.complete complete writable.allocated writable.regular (by omega) (by omega)
  | @unlink pinum name stk inum w removable unlinked =>
    intro j live regular a inside
    obtain ⟨_, liveU⟩ := (unlinked.allocated j).mp live
    by_cases parent : j = pinum.toNat
    · have dir := (lookup_ok unlinked.found).1
      rw [Int.toNat_natCast] at dir
      rw [parent, unlinked.inodes.2.1, dir] at regular
      cases regular
    · rw [unlinked.inodes.1 j parent] at regular inside ⊢
      exact complete j liveU regular a inside

/-- A write that returned 0 within the last pointer gives the size of a byte array
exactly when it starts at the end of the file. -/
theorem ufsWrite_size {b : Build} {u v : Ufs} {inum offset nbytes : Int} {buf : Nat → Byte}
    (sound : u.Sound b) (placed : u.Placed) (complete : u.Complete)
    (returned : ufsWrite b u inum buf offset nbytes = .ok (0, v)) (blocks : offset + nbytes ≤ 122880) :
    (v.inodes inum.toNat).size.toInt = max (u.inodes inum.toNat).size.toInt (offset + nbytes) ↔
      (u.inodes inum.toNat).size.toInt = offset := by
  obtain ⟨writable, writing⟩ := ufsWrite_zero sound placed returned blocks
  have le := writable.offset_le
  have start := writable.offset_nonneg
  have positive := writable.nbytes_pos
  have small := complete.size_le writable.allocated writable.regular
  have size := writing.size_toInt (by omega) (by omega)
  omega

/-- In a complete file a read inside the size meets no empty slot. -/
theorem ufsRead_inside {b : Build} {u : Ufs} {i : Nat} {offset nbytes : Int} (sound : u.Sound b)
    (placed : u.Placed) (complete : u.Complete) (live : u.allocated i)
    (regular : (u.inodes i).type = ufsRegularFile) (start : 0 ≤ offset) (positive : 0 < nbytes)
    (inside : offset + nbytes ≤ (u.inodes i).size.toInt) (buffer : Nat → Byte) :
    ∃ out, ufsRead b u i buffer offset nbytes = .ok (0, out) := by
  have small := complete.size_le live regular
  have bound : (i : Int) < u.s.numInodes.toInt := by
    have below := live.1
    unfold Super.ni at below
    omega
  have readable : u.Readable i offset nbytes := by
    refine ⟨by omega, bound, live.2, start, positive, ?_, fun dir => ?_⟩
    · rw [int32_eq (by omega) (by omega)]
      exact inside
    · rw [Int.toNat_natCast, regular] at dir
      cases dir
  refine ⟨_, ufsRead_ok sound placed readable (fun k _ high _ => ?_)⟩
  exact complete i live regular _ (by omega)

/-- What runs keep whose writes start at the end of their file. -/
theorem Run.complete {b : Build} {u₀ u : Ufs} {stk : Stack} {calls : List Call} (fresh : u₀.Fresh b stk)
    (run : Run (call b) (Appends b) u₀ calls u) : u.Sound b ∧ u.Placed ∧ u.Complete := by
  refine run.invariant (fun v => v.Sound b ∧ v.Placed ∧ v.Complete) ?_
    ⟨fresh.sound, fresh.owned.placed, fresh.complete⟩
  rintro v c w ⟨sound, placed, complete⟩ appends returned
  have effect := call_effect sound placed returned
  exact ⟨effect.sound sound placed, (effect.settled sound placed).2.2.1, effect.complete appends complete⟩

/-- Over every run whose writes start at the end of their file, a write that returns
0 gives the size max(old size, offset + nbytes) exactly when it starts there too, the
slots that a regular file's size covers have blocks, and reads inside it succeed. -/
theorem file_size_is_length {b : Build} {numInodes numData : Int} {stk : MkfsStack} {d : Disk}
    {dirtyInodeBp dirtyDataBp : Bitmap} {u₀ u : Ufs} {calls : List Call}
    (small : 4096 * imageBlocks numInodes.toNat numData.toNat < 2147483648)
    (formatted : mkfs numInodes numData stk = .ok d)
    (mounted : ufsInit b d 0 dirtyInodeBp dirtyDataBp = .ok u₀)
    (run : Run (call b) (Appends b) u₀ calls u) :
    (∀ inum buf offset nbytes v, ufsWrite b u inum buf offset nbytes = .ok (0, v) → offset + nbytes ≤ 122880 →
      ((v.inodes inum.toNat).size.toInt = max (u.inodes inum.toNat).size.toInt (offset + nbytes) ↔
        (u.inodes inum.toNat).size.toInt = offset)) ∧
    (∀ i, u.allocated i → (u.inodes i).type = ufsRegularFile → (u.inodes i).size.toInt ≤ 122880 ∧
      (∀ a : Nat, 4096 * (a : Int) < (u.inodes i).size.toInt → (u.inodes i).ptr a ≠ -1) ∧
      ∀ buffer offset nbytes, 0 ≤ offset → 0 < nbytes → offset + nbytes ≤ (u.inodes i).size.toInt →
        ∃ out, ufsRead b u i buffer offset nbytes = .ok (0, out)) := by
  obtain ⟨sound, placed, complete⟩ := Run.complete (fresh_of_mount small formatted mounted) run
  exact ⟨fun inum buf offset nbytes v returned blocks => ufsWrite_size sound placed complete returned blocks,
    fun i live regular => ⟨complete.size_le live regular, complete i live regular,
      fun buffer offset nbytes start positive inside =>
        ufsRead_inside sound placed complete live regular start positive inside buffer⟩⟩

theorem file_size_is_length_smallest : ∃ u, Run (call .host) (Appends .host) smallest
    [.creat 0 1 (letter 97 (by decide)) zeros, .write 1 (fun _ => 7) 0 2, .write 1 (fun _ => 8) 2 3] u ∧
    (u.inodes 1).size.toInt = 5 ∧ ∃ out, ufsRead .host u (1 : Nat) (fun _ => 0) 1 4 = .ok (0, out) := by
  obtain ⟨u, run, check⟩ := run_of_check (call .host) (Appends .host) appends smallest
    [.creat 0 1 (letter 97 (by decide)) zeros, .write 1 (fun _ => 7) 0 2, .write 1 (fun _ => 8) 2 3]
    (fun u => decide ((u.inodes 1).size.toInt = 5) && decide (u.allocated 1) && decide ((u.inodes 1).type = 1))
    (fun _ _ => appends_of_test) (by decide +kernel)
  simp only [Bool.and_eq_true, decide_eq_true_eq] at check
  obtain ⟨⟨size, live⟩, regular⟩ := check
  have files := file_size_is_length (by decide) smallest_formatted (smallest_mounted .host) run
  exact ⟨u, run, size, (files.2 1 live regular).2.2 _ 1 4 (by decide) (by decide) (by rw [size]; decide)⟩

/-- Writing the first two bytes of a file twice gives it four. -/
theorem overwrite_grows : ∃ u v, Run (call .host) (fun _ _ => True) smallest
    [.creat 0 1 (letter 97 (by decide)) zeros, .write 1 (fun _ => 7) 0 2] u ∧
    mkfs 32 32 ⟨fun _ => 0, zeros⟩ = .ok smallestDisk ∧
    ufsInit .host smallestDisk 0 (fun _ => 0) (fun _ => 0) = .ok smallest ∧
    ufsWrite .host u 1 (fun _ => 7) 0 2 = .ok (0, v) ∧ (u.inodes 1).size.toInt = 2 ∧
    (v.inodes 1).size.toInt = 4 ∧ (v.inodes 1).size.toInt ≠ max (u.inodes 1).size.toInt (0 + 2) := by
  obtain ⟨u, run, check⟩ := run_of_check (call .host) (fun _ _ => True) (fun _ _ => true) smallest
    [.creat 0 1 (letter 97 (by decide)) zeros, .write 1 (fun _ => 7) 0 2]
    (fun u => decide ((u.inodes 1).size.toInt = 2) && (match ufsWrite .host u 1 (fun _ => 7) 0 2 with
      | .ok (r, v) => decide (r = 0) && decide ((v.inodes 1).size.toInt = 4)
      | .error _ => false)) (fun _ _ _ => trivial) (by decide +kernel)
  rw [Bool.and_eq_true, decide_eq_true_eq] at check
  obtain ⟨before, check⟩ := check
  split at check
  · rename_i r v write
    simp only [Bool.and_eq_true, decide_eq_true_eq] at check
    obtain ⟨rfl, after⟩ := check
    exact ⟨u, v, run, smallest_formatted, smallest_mounted .host, write, before, after, by
      rw [before, after]
      decide⟩
  · cases check

end Icix
