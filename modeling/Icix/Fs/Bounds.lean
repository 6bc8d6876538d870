import Icix.Fs.Dirty
import Icix.Fs.Rejection
import Icix.Fs.Size

/-! The ends of a file's range: writes at the last pointer, and reads whose offset and
count add up to more than an int holds. Both loops stop at the 30th pointer whether
or not they have come to the end of the range, and both calls return 0 all the same. -/
namespace Icix
open Bytes Ownership Runs

/-- Byte x of file i lies in a block of the file and is c. -/
def Ufs.Stored (u : Ufs) (i x : Nat) (c : Byte) : Prop :=
  (u.inodes i).ptr (x / 4096) ≠ -1 ∧ u.fileByte i x = c

theorem Ufs.Stored.lt {u : Ufs} {i x : Nat} {c : Byte} (stored : u.Stored i x c) : x < 122880 := by
  have slot := Inode.ptr_lt stored.1
  omega

theorem stored_ptr (u : Ufs) (i m : Nat) (d : Disk) (j c : Nat) :
    ((stored u i m d).inodes j).ptr c = (u.inodes j).ptr c := by
  by_cases same : j = i
  · subst j
    rw [stored_inode]
    rfl
  · exact congrArg (Inode.ptr · c) (Function.update_of_ne same _ _)

theorem stored_placed {u : Ufs} {i m : Nat} {d : Disk} (placed : u.Placed) : (stored u i m d).Placed := by
  intro j c live real
  rw [stored_ptr] at real ⊢
  exact placed j c live real

section Loop

variable {b : Build} {u v w : Ufs} {i start n cur : Nat} {buf : Nat → Byte}

theorem Ensured.stored {a x : Nat} {c : Byte} (ensured : Ensured u i a v) (stored : u.Stored i x c) :
    v.Stored i x c := by
  have ptr := ensured.ptr i _ stored.1
  exact ⟨ptr ▸ stored.1, (ensured.fileByte stored.1).trans stored.2⟩

/-- The bytes before the piece that a turn writes are not in its way: the range is no
longer than a block, so that the piece is elsewhere in whatever block they are in. -/
theorem stored_turn {a off m : Nat} {d : Disk} (small : n ≤ 4096) (real : (u.inodes i).ptr a ≠ -1)
    (place : start + cur = 4096 * a + off) (inside : off + m ≤ 4096) (count : cur + m ≤ n)
    (bytes : d.byte = blit u.disk.byte (4096 * ((u.inodes i).ptr a).toNat + off) m (view buf cur))
    (before : ∀ k < cur, u.Stored i (start + k) (buf k)) :
    ∀ k < cur + m, (stored u i m d).Stored i (start + k) (buf k) := by
  intro k hk
  have byte := fileByte_blit (u := u) (v := stored u i m d) (j := i) (x := start + k) inside (stored_ptr ..) bytes
  unfold Ufs.Stored
  rw [stored_ptr, byte]
  by_cases old : k < cur
  · obtain ⟨realK, value⟩ := before k old
    rw [if_neg (by omega)]
    exact ⟨realK, value⟩
  · have block : (start + k) / 4096 = a := by omega
    have rem : (start + k) % 4096 = off + (k - cur) := by omega
    rw [block, rem, if_pos ⟨rfl, by omega, by omega⟩, view_apply]
    refine ⟨real, congrArg buf ?_⟩
    omega

theorem writeLoop_done {left off : Nat} (all : n ≤ cur) : writeLoop b i buf n left cur off u = .ok (true, u) := by
  cases left with
  | zero => rfl
  | succ left => rw [writeLoop, if_pos all]

theorem writeLoop_full {left off : Nat} (more : cur < n) (ensured : ensureBlock u i (29 - left) = none) :
    writeLoop b i buf n (left + 1) cur off u = .ok (false, u) := by
  rw [writeLoop, if_neg (Nat.not_le_of_lt more)]
  simp only [ensured]

/-- One turn of the loop, for which a block has been found: that block is written. -/
theorem writeLoop_step {left off : Nat} (buf : Nat → Byte) (sound : u.Sound b) (placed : u.Placed)
    (live : u.allocated i) (more : cur < n) (lt : off < 4096) (ensured : ensureBlock u i (29 - left) = some v) :
    Ensured u i (29 - left) v ∧ (v.Sound b ∧ v.Placed ∧ v.allocated i) ∧ (v.inodes i).ptr (29 - left) ≠ -1 ∧
      writeLoop b i buf n (left + 1) cur off u =
        writeLoop b i buf n left (cur + min (n - cur) (4096 - off)) 0 (stored v i (min (n - cur) (4096 - off)) {
          v.disk with
          byte := blit v.disk.byte (4096 * ((v.inodes i).ptr (29 - left)).toNat + off) (min (n - cur) (4096 - off))
            (view buf cur) }) := by
  have step := ensureBlock_spec sound live (by omega) ensured
  have soundV := step.allocates.sound sound
  have placedV := step.allocates.placed placed
  have liveV : v.allocated i := by
    unfold Ufs.allocated
    rw [step.allocates.s, step.inodeBp]
    exact live
  have positive : 0 < min (n - cur) (4096 - off) := by omega
  have fits : off + min (n - cur) (4096 - off) ≤ 4096 := by omega
  have write := held_write placedV liveV step.real soundV positive fits (view buf cur)
  refine ⟨step, ⟨soundV, placedV, liveV⟩, step.real, ?_⟩
  rw [writeLoop, if_neg (Nat.not_le_of_lt more)]
  simp only [ensured, write]
  rfl

/-- A loop that ends stores all of its range that the pointers reach. -/
theorem writeLoop_stored {left off : Nat} (position : Position start n left cur off) (le : cur ≤ n)
    (small : n ≤ 4096) (sound : v.Sound b) (placed : v.Placed) (live : v.allocated i)
    (before : ∀ k < cur, v.Stored i (start + k) (buf k))
    (returned : writeLoop b i buf n left cur off v = .ok (true, w)) :
    (w.Sound b ∧ w.Placed ∧ w.allocated i) ∧ ∀ k < n, start + k < 122880 → w.Stored i (start + k) (buf k) := by
  induction left generalizing cur off v with
  | zero =>
    cases returned
    refine ⟨⟨sound, placed, live⟩, fun k hk inside => before k ?_⟩
    by_contra last
    have past := position.past (by omega) rfl
    omega
  | succ left ih =>
    by_cases all : n ≤ cur
    · rw [writeLoop_done all] at returned
      cases returned
      exact ⟨⟨sound, placed, live⟩, fun k hk _ => before k (by omega)⟩
    · have more : cur < n := Nat.lt_of_not_ge all
      have place := position.at_block more (Nat.succ_ne_zero left)
      have low := position.left_le
      have lt := position.off_lt
      cases ensured : ensureBlock v i (29 - left) with
      | none =>
        rw [writeLoop_full more ensured] at returned
        cases returned
      | some x =>
        obtain ⟨step, ⟨soundX, placedX, liveX⟩, real, turn⟩ :=
          writeLoop_step buf sound placed live more lt ensured
        have fits : off + min (n - cur) (4096 - off) ≤ 4096 := by omega
        rw [turn] at returned
        refine ih (position.next more) (by omega) ?_ ?_ ?_ ?_ returned
        · exact soundX
        · exact stored_placed placedX
        · exact liveX
        · exact stored_turn small real (by omega) fits (by omega) rfl (fun k hk => step.stored (before k hk))

end Loop

theorem MetaStep.stored {b : Build} {u v : Ufs} {i x : Nat} {c : Byte} (step : MetaStep u v) (sound : u.Sound b)
    (placed : u.Placed) (live : u.allocated i) (stored : u.Stored i x c) : v.Stored i x c := by
  refine ⟨?_, (step.fileByte sound placed live stored.1).trans stored.2⟩
  rw [step.inodes]
  exact stored.1

/-- The result of a write says whether its bytes are in the file. -/
def WriteHonest (b : Build) (u : Ufs) (inum : Int) (buf : Nat → Byte) (offset nbytes : Int) : Prop :=
  ∀ r w, ufsWrite b u inum buf offset nbytes = .ok (r, w) →
    (r = 0 → ∀ k < nbytes.toNat, w.Stored inum.toNat (offset.toNat + k) (buf k)) ∧
    (122880 < offset + nbytes → r = -1)

/-- Writes that go past the last pointer and have, or find, a block for what comes before. -/
structure Ufs.Overruns (u : Ufs) (inum offset nbytes : Int) : Prop where
  writable : u.Writable inum offset nbytes
  past : 122880 < offset + nbytes
  room : 122880 ≤ offset ∨ (u.inodes inum.toNat).ptr 29 ≠ -1 ∨ u.spareBlocks ≠ 0

section Write

variable {b : Build} {u : Ufs} {inum offset nbytes : Int} {buf : Nat → Byte} (sound : u.Sound b) (placed : u.Placed)
  (writable : u.Writable inum offset nbytes)
include sound placed writable

theorem ufsWrite_stored {w : Ufs} (returned : ufsWrite b u inum buf offset nbytes = .ok (0, w)) :
    ∀ k < nbytes.toNat, offset.toNat + k < 122880 → w.Stored inum.toNat (offset.toNat + k) (buf k) := by
  have le := writable.nbytes_le
  rw [ufsWrite_writable writable, bind_ok] at returned
  obtain ⟨⟨done, v⟩, loop, finish⟩ := returned
  cases done with
  | false => cases finish
  | true =>
    obtain ⟨⟨soundV, placedV, liveV⟩, stored⟩ := writeLoop_stored (v := markDirty u inum.toNat)
      (Position.init offset.toNat nbytes.toNat) (Nat.zero_le _) (by omega) sound placed writable.allocated
      (fun k hk => absurd hk (Nat.not_lt_zero k)) loop
    obtain ⟨x, commit, same⟩ := bind_ok.mp finish
    obtain ⟨x', commit', committed⟩ := commitOrExit_ok soundV "ufs_write commit dirty to disk fail"
    cases Except.ok.inj (commit.symm.trans commit')
    cases same
    exact fun k hk inside => committed.step.stored soundV placedV liveV (stored k hk inside)

omit sound placed in
/-- Past the last pointer a write fails for want of a block in the last slot only. -/
theorem ufsWrite_past (past : 122880 < offset + nbytes) :
    (∃ w, ufsWrite b u inum buf offset nbytes = .ok (-1, w)) ↔ ¬ u.Overruns inum offset nbytes := by
  have low := writable.offset_nonneg
  have positive := writable.nbytes_pos
  have le := writable.nbytes_le
  by_cases last : 122880 ≤ offset
  · have none : 30 - offset.toNat / 4096 = 0 := by omega
    refine ⟨fun ⟨w, failed⟩ => ?_, fun fits => absurd ⟨writable, past, Or.inl last⟩ fits⟩
    rw [ufsWrite_failed writable, none] at failed
    cases failed
  · have one : 30 - offset.toNat / 4096 = 0 + 1 := by omega
    have room : u.Overruns inum offset nbytes ↔
        ¬ ensureBlock (markDirty u inum.toNat) inum.toNat 29 = Option.none := by
      rw [ensureBlock_none, not_and_or]
      exact ⟨fun overruns => overruns.room.resolve_left last, fun room => ⟨writable, past, Or.inr room⟩⟩
    rw [room, not_not]
    constructor
    · rintro ⟨w, failed⟩
      rw [ufsWrite_failed writable, one, writeLoop_last (Or.inr rfl)] at failed
      exact failed.2.1
    · intro nospace
      refine ⟨markDirty u inum.toNat, (ufsWrite_failed writable).mpr ?_⟩
      rw [one, writeLoop_last (Or.inr rfl)]
      exact ⟨by omega, nospace, rfl⟩

omit writable in
/-- Every write is honest but one that overruns. -/
theorem ufsWrite_honest : WriteHonest b u inum buf offset nbytes ↔ ¬ u.Overruns inum offset nbytes := by
  by_cases writable : u.Writable inum offset nbytes
  · obtain ⟨r, w, run, wrote⟩ := ufsWrite_spec buf sound placed writable
    have low := writable.offset_nonneg
    by_cases past : 122880 < offset + nbytes
    · rw [← ufsWrite_past writable past]
      constructor
      · intro honest
        exact ⟨w, run.trans (by rw [(honest r w run).2 past])⟩
      · rintro ⟨x, failed⟩ r' x' returned
        obtain ⟨rfl, rfl⟩ := Prod.mk.inj (Except.ok.inj (failed.symm.trans returned))
        exact ⟨fun zero => (by cases zero), fun _ => rfl⟩
    · refine ⟨fun _ overruns => past overruns.past, fun _ r' x returned => ⟨?_, fun beyond => absurd beyond past⟩⟩
      rintro rfl k hk
      exact ufsWrite_stored sound placed writable returned k hk (by omega)
  · refine ⟨fun _ overruns => writable overruns.writable, fun _ r w returned => ?_⟩
    rw [ufsWrite_unwritable writable] at returned
    cases returned
    exact ⟨fun zero => (by cases zero), fun _ => rfl⟩

end Write

/-- In every state that a run of calls reaches, a write that returns 0 has stored all of
its bytes, and one that does not fit returns -1, exactly when it does not overrun. -/
theorem write_success_complete {b : Build} {numInodes numData : Int} {stk : MkfsStack} {d : Disk}
    {dirtyInodeBp dirtyDataBp : Bitmap} {u₀ u : Ufs} {calls : List Call}
    (small : 4096 * imageBlocks numInodes.toNat numData.toNat < 2147483648)
    (formatted : mkfs numInodes numData stk = .ok d)
    (mounted : ufsInit b d 0 dirtyInodeBp dirtyDataBp = .ok u₀)
    (run : Run (call b) (fun _ _ => True) u₀ calls u) (inum : Int) (buf : Nat → Byte) (offset nbytes : Int) :
    WriteHonest b u inum buf offset nbytes ↔ ¬ u.Overruns inum offset nbytes := by
  have fresh := fresh_of_mount small formatted mounted
  have steady := run.invariant (Ufs.Steady b) (fun _ _ _ steady _ returned => steady.call returned) fresh.steady
  exact ufsWrite_honest steady.sound steady.placed

theorem write_success_complete_smallest : ∃ u, Run (call .kernel) (fun _ _ => True) smallest
    [.creat 0 1 (letter 97 (by decide)) zeros] u ∧ WriteHonest .kernel u 1 (fun _ => 7) 0 4096 := by
  obtain ⟨u, run, _⟩ := run_of_check (call .kernel) (fun _ _ => True) (fun _ _ => true) smallest
    [.creat 0 1 (letter 97 (by decide)) zeros] (fun _ => true) (fun _ _ _ => trivial) (by decide +kernel)
  have honest := write_success_complete (by decide) smallest_formatted (smallest_mounted .kernel) run 1
    (fun _ => 7) 0 4096
  exact ⟨u, run, honest.mpr (fun overruns => absurd overruns.past (by decide))⟩

/-- One byte more, at the end of a file that has grown to its last pointer: the write
returns 0 and the byte is nowhere. -/
theorem write_past_last_pointer : ∃ u w, Run (call .host) (fun _ _ => True) smallest
    (.creat 0 1 (letter 97 (by decide)) zeros ::
      (List.range 30).map fun (i : Nat) => .write 1 (fun _ => 7) (4096 * i) 4096) u ∧
    (u.inodes 1).size = 122880 ∧ ufsWrite .host u 1 (fun _ => 8) 122880 1 = .ok (0, w) ∧
    ¬ w.Stored 1 122880 8 ∧ ¬ WriteHonest .host u 1 (fun _ => 8) 122880 1 := by
  obtain ⟨u, run, check⟩ := run_of_check (call .host) (fun _ _ => True) (fun _ _ => true) smallest
    (.creat 0 1 (letter 97 (by decide)) zeros ::
      (List.range 30).map fun (i : Nat) => .write 1 (fun _ => 7) (4096 * i) 4096)
    (fun u => decide ((u.inodes 1).size = 122880) && match ufsWrite .host u 1 (fun _ => 8) 122880 1 with
      | .ok (r, _) => decide (r = 0)
      | .error _ => false) (fun _ _ _ => trivial) (by decide +kernel)
  rw [Bool.and_eq_true, decide_eq_true_eq] at check
  obtain ⟨size, check⟩ := check
  split at check
  · rename_i r w returned
    cases of_decide_eq_true check
    refine ⟨u, w, run, size, returned, fun stored => absurd stored.lt (by decide), fun honest => ?_⟩
    exact absurd ((honest 0 w returned).2 (by decide)) (by decide)
  · cases check

/-- A read returns 0 exactly for the ranges inside the file, and then with its bytes. -/
def ReadExact (b : Build) (u : Ufs) (i : Nat) (offset nbytes : Int) : Prop :=
  ∀ buffer,
    ((∃ out, ufsRead b u i buffer offset nbytes = .ok (0, out)) ↔
      0 ≤ offset ∧ 0 < nbytes ∧ offset + nbytes ≤ (u.inodes i).size.toInt) ∧
    ∀ out, ufsRead b u i buffer offset nbytes = .ok (0, out) →
      ∀ k < nbytes.toNat, u.Stored i (offset.toNat + k) (out k)

/-- Ranges whose end, as an int, is negative and so not past the end of the file, with a
block in every slot from the first on, if there is one. -/
structure Ufs.ReadWraps (u : Ufs) (i : Nat) (offset nbytes : Int) : Prop where
  offset_nonneg : 0 ≤ offset
  nbytes_pos : 0 < nbytes
  overflows : 2147483648 ≤ offset + nbytes
  passes : offset + nbytes - 4294967296 ≤ (u.inodes i).size.toInt
  mapped : ∀ a, offset.toNat / 4096 ≤ a → a < 30 → (u.inodes i).ptr a ≠ -1

theorem int32_wrapped {x : Int} (low : 2147483648 ≤ x) (high : x < 4294967296) : int32 x = x - 4294967296 := by
  unfold int32
  rw [Int.bmod_def]
  split <;> omega

section Read

variable {b : Build} {u : Ufs} {i : Nat} {offset nbytes : Int} (sound : u.Sound b) (placed : u.Placed)
  (live : u.allocated i) (regular : (u.inodes i).type = ufsRegularFile)
include live regular

theorem readable_regular : u.Readable i offset nbytes ↔
    0 ≤ offset ∧ 0 < nbytes ∧ int32 (offset + nbytes) ≤ (u.inodes i).size.toInt := by
  refine ⟨fun h => ⟨h.offset_nonneg, h.nbytes_pos, h.size⟩, fun ⟨low, positive, size⟩ => ?_⟩
  have bound : (i : Int) < u.s.numInodes.toInt := by
    have below := live.1
    unfold Super.ni at below
    omega
  refine ⟨by omega, bound, live.2, low, positive, size, fun dir => ?_⟩
  rw [Int.toNat_natCast, regular] at dir
  cases dir

include sound placed

theorem ufsRead_zero_iff (buffer : Nat → Byte) :
    (∃ out, ufsRead b u i buffer offset nbytes = .ok (0, out)) ↔
      (0 ≤ offset ∧ 0 < nbytes ∧ int32 (offset + nbytes) ≤ (u.inodes i).size.toInt) ∧
      (u.inodes i).mapped offset.toNat 0 nbytes.toNat := by
  rw [← readable_regular live regular]
  constructor
  · rintro ⟨out, returned⟩
    obtain ⟨readable, mapped, _⟩ := ufsRead_zero sound placed returned
    exact ⟨readable, mapped⟩
  · rintro ⟨readable, mapped⟩
    exact ⟨_, ufsRead_ok sound placed readable mapped⟩

/-- In complete files a read is exact but when its range wraps. -/
theorem ufsRead_exact (complete : u.Complete) (offset_lt : offset < 2147483648) (nbytes_lt : nbytes < 2147483648) :
    ReadExact b u i offset nbytes ↔ ¬ u.ReadWraps i offset nbytes := by
  have small := complete.size_le live regular
  constructor
  · intro exact wraps
    have low := wraps.offset_nonneg
    have overflows := wraps.overflows
    have passes := wraps.passes
    have inside := (exact fun _ => 0).1.mp ((ufsRead_zero_iff sound placed live regular _).mpr
      ⟨⟨low, wraps.nbytes_pos, by rw [int32_wrapped overflows (by omega)]; exact passes⟩,
        fun k _ _ past => wraps.mapped _ (by omega) (by omega)⟩)
    omega
  · intro fits buffer
    have ends : (∃ out, ufsRead b u i buffer offset nbytes = .ok (0, out)) ↔ _ :=
      ufsRead_zero_iff sound placed live regular buffer
    suffices inside : (∃ out, ufsRead b u i buffer offset nbytes = .ok (0, out)) →
        offset + nbytes ≤ (u.inodes i).size.toInt by
      refine ⟨⟨fun returned => ?_, fun ⟨low, positive, le⟩ => ends.mpr ⟨⟨low, positive, ?_⟩, ?_⟩⟩, ?_⟩
      · obtain ⟨⟨low, positive, _⟩, _⟩ := ends.mp returned
        exact ⟨low, positive, inside returned⟩
      · rw [int32_eq (by omega) (by omega)]
        exact le
      · exact fun k _ high _ => complete i live regular _ (by omega)
      · intro out returned k hk
        obtain ⟨readable, mapped, rfl⟩ := ufsRead_zero sound placed returned
        have low := readable.offset_nonneg
        have le := inside ⟨_, returned⟩
        rw [Int.toNat_natCast] at mapped ⊢
        refine ⟨mapped k (Nat.zero_le k) hk (by omega), ?_⟩
        unfold Ufs.filled
        exact (if_pos (by omega)).symm
    intro returned
    obtain ⟨⟨low, positive, passes⟩, mapped⟩ := ends.mp returned
    by_cases overflows : 2147483648 ≤ offset + nbytes
    · rw [int32_wrapped overflows (by omega)] at passes
      refine absurd ⟨low, positive, overflows, passes, fun a first last => ?_⟩ fits
      have slot : (offset.toNat + (4096 * a - offset.toNat)) / 4096 = a ∨ a = offset.toNat / 4096 := by omega
      rcases slot with slot | rfl
      · exact slot ▸ mapped _ (Nat.zero_le _) (by omega) (by omega)
      · exact mapped 0 (Nat.le_refl 0) (by omega) (by omega)
    · rwa [int32_eq (by omega) (by omega)] at passes

end Read

/-- In every state that a run of appending writes reaches, a read of a regular file
returns 0 exactly inside the file and with its bytes, exactly when its range does not
wrap. -/
theorem read_exact {b : Build} {numInodes numData : Int} {stk : MkfsStack} {d : Disk}
    {dirtyInodeBp dirtyDataBp : Bitmap} {u₀ u : Ufs} {calls : List Call}
    (small : 4096 * imageBlocks numInodes.toNat numData.toNat < 2147483648)
    (formatted : mkfs numInodes numData stk = .ok d)
    (mounted : ufsInit b d 0 dirtyInodeBp dirtyDataBp = .ok u₀)
    (run : Run (call b) (Appends b) u₀ calls u) {i : Nat} (live : u.allocated i)
    (regular : (u.inodes i).type = ufsRegularFile) {offset nbytes : Int}
    (offset_lt : offset < 2147483648) (nbytes_lt : nbytes < 2147483648) :
    ReadExact b u i offset nbytes ↔ ¬ u.ReadWraps i offset nbytes := by
  obtain ⟨sound, placed, complete⟩ := Run.complete (fresh_of_mount small formatted mounted) run
  exact ufsRead_exact sound placed live regular complete offset_lt nbytes_lt

/- A new file, in a run that only appends. -/
theorem new_file_appends (b : Build) (check : (match call b smallest (.creat 0 1 (letter 97 (by decide)) zeros) with
      | .ok u => decide (u.allocated 1) && decide ((u.inodes 1).type = ufsRegularFile) &&
          decide ((u.inodes 1).size = 0)
      | .error _ => false) = true) :
    ∃ u, Run (call b) (Appends b) smallest [.creat 0 1 (letter 97 (by decide)) zeros] u ∧
      u.allocated 1 ∧ (u.inodes 1).type = ufsRegularFile ∧ (u.inodes 1).size = 0 := by
  split at check
  · rename_i u created
    simp only [Bool.and_eq_true, decide_eq_true_eq] at check
    obtain ⟨⟨live, regular⟩, size⟩ := check
    refine ⟨u, .cons (fun inum _ _ large => absurd large ?_) created (.nil u), live, regular, size⟩
    have root : (smallest.inodes (0 : Int).toNat).size = 64 := congrArg Inode.size (smallest_fresh b).root
    rw [root]
    decide
  · cases check

/- Two bytes are appended and read back. -/
theorem read_exact_appended : ∃ u, Run (call .kernel) (Appends .kernel) smallest
    [.creat 0 1 (letter 97 (by decide)) zeros, .write 1 (fun _ => 7) 0 2] u ∧ ReadExact .kernel u 1 0 2 ∧
    ∃ out, ufsRead .kernel u (1 : Nat) (fun _ => 0) 0 2 = .ok (0, out) ∧ out 0 = 7 ∧ out 1 = 7 := by
  obtain ⟨u, run, check⟩ := run_of_check (call .kernel) (Appends .kernel) appends smallest
    [.creat 0 1 (letter 97 (by decide)) zeros, .write 1 (fun _ => 7) 0 2]
    (fun u => decide (u.allocated 1) && decide ((u.inodes 1).type = 1) &&
      decide ((ufsRead .kernel u (1 : Nat) (fun _ => 0) 0 2).map (fun out => (out.1, out.2 0, out.2 1)) = .ok (0, 7, 7)))
    (fun _ _ => appends_of_test) (by decide +kernel)
  simp only [Bool.and_eq_true, decide_eq_true_eq] at check
  obtain ⟨⟨live, regular⟩, read⟩ := check
  obtain ⟨⟨r, out⟩, read, bytes⟩ := map_ok.mp read
  simp only [Prod.mk.injEq] at bytes
  obtain ⟨rfl, first, second⟩ := bytes
  have exact : ReadExact .kernel u 1 0 2 ↔ ¬ u.ReadWraps 1 0 2 :=
    read_exact (by decide) smallest_formatted (smallest_mounted .kernel) run live regular (by decide) (by decide)
  exact ⟨u, run, exact.mpr (fun wraps => absurd wraps.overflows (by decide)), out, read, first, second⟩

/-- A read of one byte of an empty file at offset 2^31 - 1 returns 0 and reads nothing. -/
theorem read_wraps : ∃ u, Run (call .kernel) (Appends .kernel) smallest
    [.creat 0 1 (letter 97 (by decide)) zeros] u ∧ u.allocated 1 ∧ (u.inodes 1).type = ufsRegularFile ∧
    (u.inodes 1).size = 0 ∧ (∀ buffer, ufsRead .kernel u (1 : Nat) buffer 2147483647 1 = .ok (0, buffer)) ∧
    ¬ ReadExact .kernel u 1 2147483647 1 := by
  obtain ⟨u, run, live, regular, size⟩ := new_file_appends .kernel (by decide +kernel)
  have empty : (u.inodes 1).size.toInt = 0 := by
    rw [size]
    decide
  have wrapped : int32 (2147483647 + 1) = -2147483648 := by decide
  have readable : u.Readable (1 : Nat) 2147483647 1 :=
    (readable_regular live regular).mpr ⟨by decide, by decide, by omega⟩
  have returned : ∀ buffer, ufsRead .kernel u (1 : Nat) buffer 2147483647 1 = .ok (0, buffer) := by
    intro buffer
    rw [ufsRead_readable readable]
    rfl
  refine ⟨u, run, live, regular, size, returned, fun exact => ?_⟩
  have inside := (exact fun _ => 0).1.mp ⟨_, returned _⟩
  omega

end Icix
