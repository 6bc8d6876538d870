import Icix.Fs.Blocks

/-! ufs_read in terms of the file's bytes. -/
namespace Icix
open Bytes Ownership

/-- The buffer after bytes cur, .., n - 1 of it were read from file i at start, as
far as the pointers of an inode reach. -/
def Ufs.filled (u : Ufs) (i start cur n : Nat) (buffer : Nat → Byte) : Nat → Byte :=
  fun k => if cur ≤ k ∧ k < n ∧ start + k < 122880 then u.fileByte i (start + k) else buffer k

/-- The slots that hold bytes cur, .., n - 1 of a range at start all have a block. -/
def Inode.mapped (inode : Inode) (start cur n : Nat) : Prop :=
  ∀ k, cur ≤ k → k < n → start + k < 122880 → inode.ptr ((start + k) / 4096) ≠ -1

/-- Where a loop over the pointers 30 - left, .., 29 stands in a range at start. -/
structure Position (start n left cur off : Nat) : Prop where
  left_le : left ≤ 30
  off_lt : off < 4096
  at_block : cur < n → left ≠ 0 → start + cur = 4096 * (30 - left) + off
  past : cur < n → left = 0 → 122880 ≤ start + cur

theorem Position.init (start n : Nat) : Position start n (30 - start / 4096) 0 (start % 4096) := by
  constructor <;> omega

theorem Position.next {start n left cur off : Nat} (position : Position start n (left + 1) cur off)
    (more : cur < n) : Position start n left (cur + min (n - cur) (4096 - off)) 0 := by
  have place := position.at_block more (Nat.succ_ne_zero left)
  have le := position.left_le
  have lt := position.off_lt
  constructor <;> omega

/-- A read within a block gets the bytes that reads of one byte each get, and fails where
the last of them does. -/
theorem Read_block (b : Build) (d : Disk) (p : Word) {off n : Nat} (positive : 0 < n) (inside : off + n ≤ 4096) :
    (∃ bytes, Read b d (p * 4096 + BitVec.ofNat 32 off) n = some bytes ∧
      ∀ k < n, Read b d (p * 4096 + BitVec.ofNat 32 (off + k)) 1 = some (view bytes k)) ∨
    Read b d (p * 4096 + BitVec.ofNat 32 off) n = none ∧
      Read b d (p * 4096 + BitVec.ofNat 32 (off + (n - 1))) 1 = none := by
  obtain ⟨q, hq, addr⟩ := block_base p
  simp only [Read_eq, addr off (by omega)]
  by_cases within : 4096 * q + off < b.reach ∧ 4096 * q + off + n ≤ d.len
  · refine Or.inl ⟨_, if_pos within, fun k hk => ?_⟩
    have reach : 4096 * q + (off + k) < b.reach := by
      cases b with
      | host =>
        have low : 4096 * q + off < 2147483648 := within.1
        show 4096 * q + (off + k) < 2147483648
        omega
      | kernel =>
        show 4096 * q + (off + k) < 4294967296
        omega
    rw [addr _ (by omega), if_pos ⟨reach, by omega⟩, ← Nat.add_assoc]
    congr 1
    funext x
    simp only [view_apply, Nat.add_assoc]
  · refine Or.inr ⟨if_neg within, ?_⟩
    rw [addr _ (by omega), if_neg (by omega)]

/- What a read of one byte of a file gets from the disk, wherever the file's pointer is. -/
def Ufs.fetch (b : Build) (u : Ufs) (i x : Nat) : Option Byte :=
  (Read b u.disk ((u.inodes i).ptr (x / 4096) * 4096 + BitVec.ofNat 32 (x % 4096)) 1).map (· 0)

/-- The buffer out has bytes cur, .., n - 1 of a range at start from the disk, as far as the
pointers of an inode reach, and the rest from buffer. -/
def Ufs.Fetched (b : Build) (u : Ufs) (i start cur n : Nat) (buffer out : Nat → Byte) : Prop :=
  ∀ k, if cur ≤ k ∧ k < n ∧ start + k < 122880 then u.fetch b i (start + k) = some (out k) else out k = buffer k

theorem fetched_nothing {b : Build} {u : Ufs} {i start cur n : Nat} {buffer out : Nat → Byte}
    (nothing : ∀ k, ¬ (cur ≤ k ∧ k < n ∧ start + k < 122880)) :
    u.Fetched b i start cur n buffer out ↔ buffer = out := by
  unfold Ufs.Fetched
  simp only [nothing, if_false]
  rw [funext_iff]
  exact ⟨fun same k => (same k).symm, fun same k => (same k).symm⟩

/-- The loop returns what the reads of one byte each get, and fails where one of them does. -/
theorem readLoop_fetched {b : Build} {u : Ufs} {i start n left cur off : Nat} {buffer out : Nat → Byte}
    (position : Position start n left cur off) :
    readLoop b u.disk (u.inodes i) n left cur off buffer = .ok out ↔ u.Fetched b i start cur n buffer out := by
  induction left generalizing cur off buffer with
  | zero =>
    have past := position.past
    rw [fetched_nothing (by omega)]
    exact ⟨Except.ok.inj, congrArg Except.ok⟩
  | succ left ih =>
    rw [readLoop_succ]
    by_cases all : n ≤ cur
    · rw [if_pos all, fetched_nothing (by omega), Except.ok.injEq]
    · have more : cur < n := Nat.lt_of_not_ge all
      have place := position.at_block more (Nat.succ_ne_zero left)
      have le := position.left_le
      have lt := position.off_lt
      have next := position.next more
      rw [if_neg all]
      generalize size : min (n - cur) (4096 - off) = sz at next ⊢
      have slot : ∀ k < sz, u.fetch b i (start + (cur + k)) =
          (Read b u.disk ((u.inodes i).ptr (29 - left) * 4096 + BitVec.ofNat 32 (off + k)) 1).map (· 0) := by
        intro k hk
        have block : (start + (cur + k)) / 4096 = 29 - left := by omega
        have rem : (start + (cur + k)) % 4096 = off + k := by omega
        rw [Ufs.fetch, block, rem]
      have positive : 0 < sz := by omega
      have inside : off + sz ≤ 4096 := by omega
      rcases Read_block b u.disk ((u.inodes i).ptr (29 - left)) positive inside with
        ⟨bytes, read, single⟩ | ⟨failed, single⟩
      · simp only [read]
        rw [ih next]
        refine forall_congr' fun k => ?_
        by_cases later : cur + sz ≤ k
        · have outside : k < cur ∨ cur + sz ≤ k := Or.inr later
          have early : cur ≤ k := by omega
          simp only [later, early, true_and, blit_outside _ _ outside]
        · rw [if_neg (fun h => later h.1)]
          by_cases inside : cur ≤ k
          · obtain ⟨c, rfl⟩ := Nat.exists_eq_add_of_le inside
            have hc : c < sz := by omega
            rw [blit_inside _ _ hc, if_pos (by omega), slot c hc, single c hc]
            simp only [Option.map_some, view_apply, Nat.add_zero, Option.some.injEq]
            exact eq_comm
          · rw [blit_outside _ _ (by omega), if_neg (by omega)]
      · simp only [failed, reduceCtorEq, false_iff]
        intro fetched
        have last := fetched (cur + (sz - 1))
        rw [if_pos (by omega), slot _ (by omega), single] at last
        cases last

section ReadLoop

variable {b : Build} {u : Ufs} {i start n : Nat} (sound : u.Sound b) (placed : u.Placed)
  (live : u.allocated i)

include sound in
/-- A byte without a block is not on the disk. -/
theorem fetch_real {x : Nat} {c : Byte} (fetched : u.fetch b i x = some c) : (u.inodes i).ptr (x / 4096) ≠ -1 := by
  intro empty
  rw [Ufs.fetch, empty, Read_minus_one sound.disk_le Nat.one_pos (Nat.mod_lt x (Nat.succ_pos 4095))] at fetched
  cases fetched

include sound placed live

theorem fetch_held {x : Nat} (real : (u.inodes i).ptr (x / 4096) ≠ -1) :
    u.fetch b i x = some (u.fileByte i x) := by
  have inside : x % 4096 + 1 ≤ 4096 := Nat.mod_lt x (Nat.succ_pos 4095)
  rw [Ufs.fetch, held_read placed live real sound Nat.one_pos inside]
  rfl

theorem readLoop_ok (left cur off : Nat) (buffer : Nat → Byte) (position : Position start n left cur off)
    (mapped : (u.inodes i).mapped start cur n) :
    readLoop b u.disk (u.inodes i) n left cur off buffer = .ok (u.filled i start cur n buffer) := by
  refine (readLoop_fetched position).mpr fun k => ?_
  unfold Ufs.filled
  split
  · rename_i inside
    exact fetch_held sound placed live (mapped k inside.1 inside.2.1 inside.2.2)
  · rfl

omit placed live in
/-- A loop that returned has met no empty slot. -/
theorem readLoop_mapped (left cur off : Nat) (buffer out : Nat → Byte)
    (position : Position start n left cur off)
    (returned : readLoop b u.disk (u.inodes i) n left cur off buffer = .ok out) :
    (u.inodes i).mapped start cur n := by
  intro k low high inside
  have fetched := (readLoop_fetched position).mp returned k
  rw [if_pos ⟨low, high, inside⟩] at fetched
  exact fetch_real sound fetched

end ReadLoop

/-- The checks of ufs_read before its loop. -/
structure Ufs.Readable (u : Ufs) (inum offset nbytes : Int) : Prop where
  low : 0 ≤ inum
  high : inum < u.s.numInodes.toInt
  bit : getBitmap u.inodeBp inum = true
  offset_nonneg : 0 ≤ offset
  nbytes_pos : 0 < nbytes
  size : int32 (offset + nbytes) ≤ (u.inodes inum.toNat).size.toInt
  aligned : (u.inodes inum.toNat).type = ufsDirectory → offset.toNat % 4096 % 32 = 0

theorem allocated_of_bit {u : Ufs} {inum : Int} (low : 0 ≤ inum) (high : inum < u.s.numInodes.toInt)
    (bit : getBitmap u.inodeBp inum = true) : u.allocated inum.toNat := by
  have value : ((inum.toNat : Nat) : Int) = inum := Int.toNat_of_nonneg low
  have bound : inum.toNat < u.s.ni := by
    unfold Super.ni
    omega
  exact ⟨bound, value.symm ▸ bit⟩

theorem Ufs.Readable.allocated {u : Ufs} {inum offset nbytes : Int}
    (readable : u.Readable inum offset nbytes) : u.allocated inum.toNat :=
  allocated_of_bit readable.low readable.high readable.bit

section Read

variable {b : Build} {u : Ufs} {inum offset nbytes : Int} {buffer : Nat → Byte}

theorem ufsRead_unreadable (unreadable : ¬ u.Readable inum offset nbytes) :
    ufsRead b u inum buffer offset nbytes = .ok (-1, buffer) := by
  rw [read_checks]
  by_cases range : inum < 0 ∨ u.s.numInodes.toInt ≤ inum
  · rw [if_pos range]
  · rw [if_neg range]
    by_cases bit : getBitmap u.inodeBp inum = false
    · rw [if_pos bit]
    · rw [if_neg bit]
      split
      · rfl
      · rename_i bounds
        split
        · rfl
        · rename_i aligned
          exact absurd ⟨by omega, by omega, by simpa using bit, by omega, by omega, by omega,
            fun dir => by_contra fun off => aligned ⟨dir, off⟩⟩ unreadable

theorem ufsRead_readable (readable : u.Readable inum offset nbytes) :
    ufsRead b u inum buffer offset nbytes =
      (readLoop b u.disk (u.inodes inum.toNat) nbytes.toNat (30 - offset.toNat / 4096) 0
        (offset.toNat % 4096) buffer).map fun out => (0, out) := by
  have h := readable
  rw [read_checks, if_neg (by have := h.low; have := h.high; omega), if_neg (by simp [h.bit]),
    if_neg (by have := h.offset_nonneg; have := h.nbytes_pos; have := h.size; omega),
    if_neg (fun bad => bad.2 (h.aligned bad.1))]
  cases readLoop b u.disk (u.inodes inum.toNat) nbytes.toNat (30 - offset.toNat / 4096) 0
    (offset.toNat % 4096) buffer <;> rfl

/-- A read of a mapped range returns 0 and the file's bytes. -/
theorem ufsRead_ok (sound : u.Sound b) (placed : u.Placed) (readable : u.Readable inum offset nbytes)
    (mapped : (u.inodes inum.toNat).mapped offset.toNat 0 nbytes.toNat) :
    ufsRead b u inum buffer offset nbytes =
      .ok (0, u.filled inum.toNat offset.toNat 0 nbytes.toNat buffer) := by
  rw [ufsRead_readable readable, readLoop_ok sound placed readable.allocated _ _ _ _
    (Position.init _ _) mapped]
  rfl

/-- A read that returned 0 was of a mapped range. -/
theorem ufsRead_zero (sound : u.Sound b) (placed : u.Placed) {out : Nat → Byte}
    (returned : ufsRead b u inum buffer offset nbytes = .ok (0, out)) :
    u.Readable inum offset nbytes ∧ (u.inodes inum.toNat).mapped offset.toNat 0 nbytes.toNat ∧
      out = u.filled inum.toNat offset.toNat 0 nbytes.toNat buffer := by
  by_cases readable : u.Readable inum offset nbytes
  · have loop := returned
    rw [ufsRead_readable readable] at loop
    cases run : readLoop b u.disk (u.inodes inum.toNat) nbytes.toNat (30 - offset.toNat / 4096) 0
      (offset.toNat % 4096) buffer with
    | error fault =>
      rw [run] at loop
      cases loop
    | ok bytes =>
      have mapped := readLoop_mapped sound _ _ _ _ _ (Position.init _ _) run
      rw [ufsRead_ok sound placed readable mapped] at returned
      exact ⟨readable, mapped, (Prod.mk.inj (Except.ok.inj returned)).2.symm⟩
  · rw [ufsRead_unreadable readable] at returned
    cases returned

end Read

end Icix
