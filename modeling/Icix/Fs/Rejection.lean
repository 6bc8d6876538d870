import Icix.Fs.Capacity
import Icix.Fs.Release

/-! What ufs_write and ufs_unlink leave behind when they return -1. A write crosses at
most one block boundary, so it can run out of blocks before its first byte or between
its two blocks; the second time it has already stored bytes and grown the file. -/
namespace Icix
open Bytes Runs

/-- A write of so many bytes at this address reaches the disk. -/
def Disk.Accepts (b : Build) (d : Disk) (addr : Word) (count : Nat) : Prop :=
  ∃ cursor, d.lseek b addr.toInt = some cursor ∧ (b = .host ∨ cursor + count ≤ d.len)

theorem Write_isSome {b : Build} {d : Disk} {addr : Word} {buf : Nat → Byte} {count : Nat} :
    (∃ d', Write b d addr buf count = some d') ↔ d.Accepts b addr count := by
  unfold Write Disk.Accepts
  cases d.lseek b addr.toInt with
  | none => simp
  | some cursor =>
    simp only [Option.bind_some, Disk.write, Option.some.injEq, exists_eq_left']
    by_cases inside : cursor + count ≤ d.len
    · simp [inside]
    · cases b <;> simp [inside]

/-- The block that a slot has, or that it is given when it has none. -/
def Ufs.slotBlock (u : Ufs) (i a : Nat) : Option Word :=
  if (u.inodes i).ptr a = -1 then (firstClearData u).map u.newBlock else some ((u.inodes i).ptr a)

theorem firstClearData_none {u : Ufs} : firstClearData u = none ↔ u.spareBlocks = 0 := by
  unfold firstClearData Ufs.spareBlocks
  rw [List.find?_eq_none, List.countP_eq_zero]

/-- Marking a clear block leaves one less. -/
theorem markData_spare {u : Ufs} {k : Nat} (hk : k < u.s.nd) (clear : getBitmap u.dataBp k = false) :
    (markData u k).spareBlocks + 1 = u.spareBlocks := by
  have s : (markData u k).s = u.s := rfl
  have bits : ∀ j : Nat, getBitmap (markData u k).dataBp j = (decide (j = k) || getBitmap u.dataBp j) :=
    get_set_nat u.dataBp k
  unfold Ufs.spareBlocks
  rw [s]
  generalize u.s.nd = n at hk
  induction n with
  | zero => cases hk
  | succ n ih =>
    simp only [List.range_succ, List.countP_append, List.countP_singleton, bits] at ih ⊢
    by_cases last : n = k
    · subst n
      have before : ∀ j ∈ List.range k, (!(decide (j = k) || getBitmap u.dataBp j)) = !getBitmap u.dataBp j := by
        intro j inside
        have other : j ≠ k := Nat.ne_of_lt (List.mem_range.mp inside)
        simp [other]
      rw [List.countP_congr (fun j inside => by rw [before j inside])]
      simp [clear]
    · have rest := ih (by omega)
      simp only [last, decide_false, Bool.false_or]
      omega

section Ensure

variable {u v : Ufs} {i a : Nat}

theorem ensureBlock_none : ensureBlock u i a = none ↔ (u.inodes i).ptr a = -1 ∧ u.spareBlocks = 0 := by
  unfold ensureBlock
  by_cases empty : (u.inodes i).ptr a = -1
  · rw [if_pos empty, Option.map_eq_none_iff, firstClearData_none]
    exact ⟨fun none => ⟨empty, none⟩, And.right⟩
  · rw [if_neg empty]
    exact ⟨fun none => (by cases none), fun none => absurd none.1 empty⟩

/-- The slot that is given a block, and the blocks that are left. -/
theorem ensureBlock_some (ha : a < 30) (ensured : ensureBlock u i a = some v) :
    u.slotBlock i a = some ((v.inodes i).ptr a) ∧ v.disk = u.disk ∧
      (v.inodes i).size = (u.inodes i).size ∧ (∀ c, c ≠ a → (v.inodes i).ptr c = (u.inodes i).ptr c) ∧
      v.spareBlocks + (if (u.inodes i).ptr a = -1 then 1 else 0) = u.spareBlocks := by
  unfold ensureBlock at ensured
  unfold Ufs.slotBlock
  by_cases empty : (u.inodes i).ptr a = -1
  · rw [if_pos empty] at ensured
    obtain ⟨k, found, rfl⟩ := Option.map_eq_some_iff.mp ensured
    obtain ⟨hk, clear⟩ := firstClearData_some found
    have inode : ((markData u k).setInode i ((u.inodes i).setPtr a (u.newBlock k))).inodes i =
        (u.inodes i).setPtr a (u.newBlock k) := Function.update_self ..
    have spare := markData_spare hk clear
    rw [if_pos empty, if_pos empty, found, inode]
    refine ⟨?_, rfl, Inode.size_setPtr _ _ _, fun c other => ?_, spare⟩
    · rw [Inode.ptr_setPtr _ ha, if_pos rfl]
      rfl
    · rw [Inode.ptr_setPtr _ ha, if_neg other]
  · rw [if_neg empty] at ensured
    cases ensured
    rw [if_neg empty, if_neg empty]
    exact ⟨rfl, rfl, rfl, fun _ _ => rfl, rfl⟩

theorem ensureBlock_slotBlock {p : Word} (block : u.slotBlock i a = some p) : ∃ v, ensureBlock u i a = some v := by
  unfold Ufs.slotBlock at block
  unfold ensureBlock
  by_cases empty : (u.inodes i).ptr a = -1
  · rw [if_pos empty] at block ⊢
    obtain ⟨k, found, _⟩ := Option.map_eq_some_iff.mp block
    exact ⟨_, by rw [found]; rfl⟩
  · exact ⟨u, if_neg empty⟩

end Ensure

/- The state after one turn of ufs_write's loop that has written n bytes. -/
def stored (u : Ufs) (i n : Nat) (d : Disk) : Ufs :=
  ({ u with disk := d }).setInode i { u.inodes i with size := (u.inodes i).size + BitVec.ofNat 32 n }

theorem stored_inode (u : Ufs) (i n : Nat) (d : Disk) :
    (stored u i n d).inodes i = { u.inodes i with size := (u.inodes i).size + BitVec.ofNat 32 n } :=
  Function.update_self ..

section Loop

variable {b : Build} {u w : Ufs} {i n left cur off : Nat} {buf : Nat → Byte}

/-- In the block in which a write ends, or in the last slot, only the search for a block
can fail. -/
theorem writeLoop_last (ends : n ≤ cur + (4096 - off) ∨ left = 0) :
    writeLoop b i buf n (left + 1) cur off u = .ok (false, w) ↔
      cur < n ∧ ensureBlock u i (29 - left) = none ∧ w = u := by
  unfold writeLoop
  by_cases all : n ≤ cur
  · rw [if_pos all]
    exact ⟨fun done => (by cases done), fun stopped => absurd stopped.1 (Nat.not_lt_of_le all)⟩
  · have more : cur < n := Nat.lt_of_not_le all
    rw [if_neg all]
    cases ensured : ensureBlock u i (29 - left) with
    | none =>
      simp only [Except.ok.injEq, Prod.mk.injEq, true_and, more]
      exact eq_comm
    | some v =>
      simp only [reduceCtorEq, false_and, and_false, iff_false]
      intro failed
      split at failed
      · cases failed
      · cases left with
        | zero => cases failed
        | succ left =>
          have fits := ends.resolve_right (Nat.succ_ne_zero left)
          unfold writeLoop at failed
          rw [if_pos (by omega)] at failed
          cases failed

/-- A write that goes on in the next block fails before its first byte, or there. -/
theorem writeLoop_crossing (lt : off < 4096) (le : n ≤ 4096) (crosses : 4096 < off + n) :
    writeLoop b i buf n (left + 2) 0 off u = .ok (false, w) ↔
      ensureBlock u i (28 - left) = none ∧ w = u ∨
      ∃ v d, ensureBlock u i (28 - left) = some v ∧
        Write b v.disk ((v.inodes i).ptr (28 - left) * 4096 + BitVec.ofNat 32 off) (view buf 0) (4096 - off) = some d ∧
        ensureBlock (stored v i (4096 - off) d) i (29 - left) = none ∧ w = stored v i (4096 - off) d := by
  have index : 29 - (left + 1) = 28 - left := by omega
  have some : ¬ n ≤ 0 := by omega
  have size : min (n - 0) (4096 - off) = 4096 - off := by omega
  have rest : 4096 - off < n := by omega
  rw [writeLoop, if_neg some, size, index]
  cases ensured : ensureBlock u i (28 - left) with
  | none =>
    simp only [Except.ok.injEq, Prod.mk.injEq, true_and, reduceCtorEq, false_and, exists_false, or_false]
    exact eq_comm
  | some v =>
    simp only [reduceCtorEq, false_and, false_or, Option.some.injEq, exists_and_left, exists_eq_left']
    cases wrote : Write b v.disk ((v.inodes i).ptr (28 - left) * 4096 + BitVec.ofNat 32 off) (view buf 0)
        (4096 - off) with
    | none => simp only [reduceCtorEq, false_and, exists_false]
    | some d =>
      simp only [Option.some.injEq, exists_eq_left', Nat.zero_add]
      have last := @writeLoop_last b (stored v i (4096 - off) d) w i n left (4096 - off) 0 buf (Or.inl (by omega))
      simp only [rest, true_and] at last
      exact last

end Loop

/-- Writes that store bytes in their first block and find none for the second. -/
structure Ufs.Stranded (b : Build) (u : Ufs) (inum offset nbytes : Int) : Prop where
  writable : u.Writable inum offset nbytes
  crosses : 4096 < offset.toNat % 4096 + nbytes.toNat
  inside : offset.toNat / 4096 < 29
  accepted : ∃ p, u.slotBlock inum.toNat (offset.toNat / 4096) = some p ∧
    u.disk.Accepts b (p * 4096 + BitVec.ofNat 32 (offset.toNat % 4096)) (4096 - offset.toNat % 4096)
  empty : (u.inodes inum.toNat).ptr (offset.toNat / 4096 + 1) = -1
  spare : u.spareBlocks = if (u.inodes inum.toNat).ptr (offset.toNat / 4096) = -1 then 1 else 0

section Write

variable {b : Build} {u w : Ufs} {inum offset nbytes : Int} {buf : Nat → Byte}

/-- A write that passes its checks returns -1 where its loop does. -/
theorem ufsWrite_failed (writable : u.Writable inum offset nbytes) :
    ufsWrite b u inum buf offset nbytes = .ok (-1, w) ↔
      writeLoop b inum.toNat buf nbytes.toNat (30 - offset.toNat / 4096) 0 (offset.toNat % 4096)
        (markDirty u inum.toNat) = .ok (false, w) := by
  rw [ufsWrite_writable writable, bind_ok]
  constructor
  · rintro ⟨⟨done, v⟩, loop, returned⟩
    cases done with
    | false =>
      cases returned
      exact loop
    | true =>
      obtain ⟨x, _, zero⟩ := bind_ok.mp returned
      cases zero
  · intro loop
    exact ⟨_, loop, rfl⟩

/-- A write that has returned -1 has changed no more than a dirty bit, or is stranded. -/
theorem ufsWrite_failed_cases (returned : ufsWrite b u inum buf offset nbytes = .ok (-1, w)) :
    Unchanged u w ∨ u.Stranded b inum offset nbytes := by
  by_cases writable : u.Writable inum offset nbytes
  · have nonneg := writable.offset_nonneg
    have positive := writable.nbytes_pos
    have le := writable.nbytes_le
    have loop := (ufsWrite_failed writable).mp returned
    by_cases past : 30 ≤ offset.toNat / 4096
    · rw [Nat.sub_eq_zero_of_le past] at loop
      cases loop
    · by_cases crosses : 4096 < offset.toNat % 4096 + nbytes.toNat ∧ offset.toNat / 4096 < 29
      · obtain ⟨crosses, inside⟩ := crosses
        have left : 30 - offset.toNat / 4096 = 28 - offset.toNat / 4096 + 2 := by omega
        have first : 28 - (28 - offset.toNat / 4096) = offset.toNat / 4096 := by omega
        have second : 29 - (28 - offset.toNat / 4096) = offset.toNat / 4096 + 1 := by omega
        rw [left, writeLoop_crossing (Nat.mod_lt _ (Nat.succ_pos 4095)) (by omega) crosses, first, second] at loop
        rcases loop with ⟨_, rfl⟩ | ⟨v, d, ensured, wrote, none, rfl⟩
        · exact Or.inl ⟨rfl, rfl, rfl, rfl⟩
        · obtain ⟨block, disk, size, other, spare⟩ := ensureBlock_some (by omega) ensured
          obtain ⟨empty, gone⟩ := ensureBlock_none.mp none
          rw [stored_inode] at empty
          have slot : (v.inodes inum.toNat).ptr (offset.toNat / 4096 + 1) = -1 := empty
          have left : v.spareBlocks = 0 := gone
          rw [other _ (by omega)] at slot
          rw [left, Nat.zero_add] at spare
          exact Or.inr ⟨writable, crosses, inside, ⟨_, block, disk ▸ Write_isSome.mp ⟨d, wrote⟩⟩, slot, spare.symm⟩
      · have left : 30 - offset.toNat / 4096 = 29 - offset.toNat / 4096 + 1 := by omega
        rw [left, writeLoop_last (by omega)] at loop
        obtain ⟨_, _, rfl⟩ := loop
        exact Or.inl ⟨rfl, rfl, rfl, rfl⟩
  · rw [ufsWrite_unwritable writable] at returned
    cases returned
    exact Or.inl ⟨rfl, rfl, rfl, rfl⟩

/-- Such a write returns -1 with a larger file. -/
theorem Ufs.Stranded.grows (stranded : u.Stranded b inum offset nbytes) (buf : Nat → Byte) :
    ∃ w, ufsWrite b u inum buf offset nbytes = .ok (-1, w) ∧
      (w.inodes inum.toNat).size =
        (u.inodes inum.toNat).size + BitVec.ofNat 32 (4096 - offset.toNat % 4096) := by
  have writable := stranded.writable
  have inside := stranded.inside
  have positive := writable.nbytes_pos
  have le := writable.nbytes_le
  obtain ⟨p, block, accepts⟩ := stranded.accepted
  obtain ⟨v, ensured⟩ := ensureBlock_slotBlock (u := markDirty u inum.toNat) block
  obtain ⟨block', disk, size, other, spare⟩ := ensureBlock_some (by omega) ensured
  cases Option.some.inj (block.symm.trans block')
  obtain ⟨d, wrote⟩ : ∃ d, Write b u.disk _ (view buf 0) (4096 - offset.toNat % 4096) = some d :=
    Write_isSome.mpr accepts
  have parent : (markDirty u inum.toNat).inodes inum.toNat = u.inodes inum.toNat := rfl
  have gone : v.spareBlocks = 0 := by
    have before : (markDirty u inum.toNat).spareBlocks = u.spareBlocks := rfl
    rw [before, parent, stranded.spare] at spare
    omega
  refine ⟨stored v inum.toNat (4096 - offset.toNat % 4096) d, (ufsWrite_failed writable).mpr ?_, ?_⟩
  · have left : 30 - offset.toNat / 4096 = 28 - offset.toNat / 4096 + 2 := by omega
    have first : 28 - (28 - offset.toNat / 4096) = offset.toNat / 4096 := by omega
    have second : 29 - (28 - offset.toNat / 4096) = offset.toNat / 4096 + 1 := by omega
    rw [left, writeLoop_crossing (Nat.mod_lt _ (Nat.succ_pos 4095)) (by omega) stranded.crosses, first, second]
    refine Or.inr ⟨v, d, ensured, disk ▸ wrote, ensureBlock_none.mpr ⟨?_, gone⟩, rfl⟩
    rw [stored_inode]
    exact (other _ (by omega)).trans stranded.empty
  · rw [stored_inode]
    dsimp only
    rw [size, parent]

end Write

/-- Every write that returns -1 leaves the file system as it was exactly when it does not
store bytes in one block and then find none for the next. -/
theorem failed_write_unchanged (b : Build) (u : Ufs) (inum : Int) (buf : Nat → Byte) (offset nbytes : Int) :
    (∀ w, ufsWrite b u inum buf offset nbytes = .ok (-1, w) → Unchanged u w) ↔
      ¬ u.Stranded b inum offset nbytes := by
  constructor
  · intro unchanged stranded
    obtain ⟨w, returned, size⟩ := stranded.grows buf
    rw [(unchanged w returned).inodes] at size
    have zero := BitVec.add_right_eq_self.mp size.symm
    have count := congrArg BitVec.toNat zero
    rw [BitVec.toNat_ofNat] at count
    have zeros : (0#32).toNat = 0 := rfl
    omega
  · intro fits w returned
    exact (ufsWrite_failed_cases returned).resolve_right fits

/- The same file system with every data block marked used. -/
def usedUp (u : Ufs) : Ufs := { u with dataBp := fun _ => -1 }

theorem usedUp_owned {u : Ufs} (owned : u.Owned) : (usedUp u).Owned where
  exclusive := owned.exclusive
  covered := by
    refine owned.covered.mono (fun d ⟨k, hk, same, _⟩ => ⟨k, hk, same, ?_⟩)
    have ones : (-1 : Word) = BitVec.allOnes 32 := by decide
    have shift := bitmapShift_lt k
    change WordBits.testBit (fun _ => -1) (bitmapWord k) (bitmapShift k) = true
    rw [WordBits.testBit_eq_getLsbD _ _ shift, ones, BitVec.getLsbD_allOnes]
    exact decide_eq_true shift

/-- A file of one byte on a full disk: a write of 4096 more returns -1 and leaves 4095
of them in the file. -/
theorem failed_write_grows : ∃ u w, u.Sound .host ∧ u.Owned ∧
    ufsWrite .host u 1 (fun _ => 8) 1 4096 = .ok (-1, w) ∧ (u.inodes 1).size = 1 ∧ (w.inodes 1).size = 4096 ∧
    u.fileByte 1 1 = 0 ∧ w.fileByte 1 1 = 8 ∧ ¬ Unchanged u w := by
  obtain ⟨u, run, check⟩ := run_of_check (call .host) (Harmless .host)
    (fun _ c => !c.removes) smallest [.creat 0 1 (letter 97 (by decide)) zeros, .write 1 (fun _ => 7) 0 1]
    (fun u => decide ((u.inodes 1).size = 1) && decide (u.fileByte 1 1 = 0) &&
      match ufsWrite .host (usedUp u) 1 (fun _ => 8) 1 4096 with
      | .ok (r, w) => decide (r = -1) && decide ((w.inodes 1).size = 4096) && decide (w.fileByte 1 1 = 8)
      | .error _ => false)
    (fun u c test => by
      cases c with
      | unlink => cases test
      | _ => trivial)
    (by decide +kernel)
  simp only [Bool.and_eq_true, decide_eq_true_eq] at check
  obtain ⟨⟨size, empty⟩, check⟩ := check
  split at check
  · rename_i r w returned
    simp only [Bool.and_eq_true, decide_eq_true_eq] at check
    obtain ⟨⟨rfl, larger⟩, byte⟩ := check
    have kept := Run.owned (smallest_fresh .host) run
    refine ⟨usedUp u, w, kept.1, usedUp_owned kept.2, returned, size, larger, empty, byte, fun unchanged => ?_⟩
    rw [unchanged.inodes] at larger
    exact absurd (size.symm.trans larger) (by decide)
  · cases check

/-- What ufs_lookup reports when it finds no entry. -/
def LookupFailure (r : Int) : Prop := r = -1 ∨ r = -2 ∨ r = -3 ∨ r = -4

/-- The names that ufs_unlink refuses to look up. -/
def Dots (name : CString) : Prop := name.chars = [46] ∨ name.chars = [46, 46]

/-- After a lookup that fails, an unlink returns -1 and changes nothing exactly when it
is refused before its own lookup, or that reports -1. -/
theorem unlink_rejects_failed_lookup {b : Build} {u : Ufs} {pinum r : Int} {name : CString} (stk : Stack)
    (looked : ufsLookup b u pinum name = .ok r) (failure : LookupFailure r) :
    ufsUnlink b u pinum name stk = .ok (-1, u) ↔
      r = -1 ∨ Dots name ∨ ¬ (0 ≤ pinum ∧ u.allocated pinum.toNat) := by
  unfold ufsUnlink
  by_cases range : pinum < 0 ∨ u.s.numInodes.toInt ≤ pinum
  · rw [if_pos range]
    refine ⟨fun _ => Or.inr (Or.inr fun inside => ?_), fun _ => rfl⟩
    have below := inside.2.1
    unfold Super.ni at below
    omega
  · rw [if_neg range]
    by_cases bit : getBitmap u.inodeBp pinum = false
    · rw [if_pos bit]
      refine ⟨fun _ => Or.inr (Or.inr fun inside => ?_), fun _ => rfl⟩
      have set := inside.2.2
      rw [Int.toNat_of_nonneg inside.1, bit] at set
      cases set
    · have live : u.allocated pinum.toNat := allocated_of_bit (by omega) (by omega) (by simpa using bit)
      rw [if_neg bit]
      by_cases isDot : name.chars = [46]
      · rw [if_pos (strcmp_dot.mpr isDot)]
        exact ⟨fun _ => Or.inr (Or.inl (Or.inl isDot)), fun _ => rfl⟩
      · rw [if_neg (mt strcmp_dot.mp isDot)]
        by_cases isDotdot : name.chars = [46, 46]
        · rw [if_pos (strcmp_dotdot.mpr isDotdot)]
          exact ⟨fun _ => Or.inr (Or.inl (Or.inr isDotdot)), fun _ => rfl⟩
        · rw [if_neg (mt strcmp_dotdot.mp isDotdot), looked, ok_bind]
          by_cases absent : r = -1
          · rw [if_pos absent]
            exact ⟨fun _ => Or.inl absent, fun _ => rfl⟩
          · -- a number below -1 goes on as if it were an inode's
            have negative : r < 0 ∨ u.s.numInodes.toInt ≤ r := by
              unfold LookupFailure at failure
              omega
            rw [if_neg absent, unlinkAt, if_pos negative]
            refine ⟨fun returned => (by cases returned), fun refused => ?_⟩
            rcases refused with absent' | (isDot' | isDotdot') | outside
            · exact absurd absent' absent
            · exact absurd isDot' isDot
            · exact absurd isDotdot' isDotdot
            · exact absurd ⟨by omega, live⟩ outside

theorem unlink_rejects_failed_lookup_letter :
    ufsUnlink .kernel smallest 0 (letter 97 (by decide)) zeros = .ok (-1, smallest) := by
  have absent : ufsLookup .kernel smallest 0 (letter 97 (by decide)) = .ok (-1) := by decide +kernel
  exact (unlink_rejects_failed_lookup zeros absent (Or.inl rfl)).mpr (Or.inl rfl)

/-- An unlink with a regular file as the parent goes on with inode number -4. -/
theorem unlink_through_file : ∃ u, Run (call .host) (fun _ _ => True) smallest
    [.creat 0 1 (letter 97 (by decide)) zeros] u ∧ (u.inodes 1).type = ufsRegularFile ∧ u.allocated 1 ∧
    ufsLookup .host u 1 (letter 98 (by decide)) = .ok (-4) ∧
    ufsUnlink .host u 1 (letter 98 (by decide)) zeros = .error .outOfBounds := by
  obtain ⟨u, run, check⟩ := run_of_check (call .host) (fun _ _ => True) (fun _ _ => true) smallest
    [.creat 0 1 (letter 97 (by decide)) zeros]
    (fun u => decide ((u.inodes 1).type = ufsRegularFile) && decide (u.allocated 1) &&
      decide (ufsLookup .host u 1 (letter 98 (by decide)) = .ok (-4)) &&
      match ufsUnlink .host u 1 (letter 98 (by decide)) zeros with
      | .error fault => decide (fault = .outOfBounds)
      | .ok _ => false) (fun _ _ _ => trivial) (by decide +kernel)
  simp only [Bool.and_eq_true, decide_eq_true_eq] at check
  obtain ⟨⟨⟨type, live⟩, looked⟩, check⟩ := check
  split at check
  · rename_i fault returned
    exact ⟨u, run, type, live, looked, (decide_eq_true_eq.mp check) ▸ returned⟩
  · cases check

end Icix
