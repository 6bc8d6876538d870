import Icix.Fs.Tree

/-! The layout that mkfs computes in ints, for every pair of counts it accepts, and what a
formatted image mounts to. -/
namespace Icix
open Bytes Runs

/- The regions that a superblock names: first block, and number of blocks. -/
def Super.regions (s : Super) : List (Int × Int) :=
  [(0, 1), (s.inodeBitmapAddr.toInt, s.inodeBitmapLen.toInt), (s.dataBitmapAddr.toInt, s.dataBitmapLen.toInt),
    (s.inodeRegionAddr.toInt, s.inodeRegionLen.toInt), (s.dataRegionAddr.toInt, s.dataRegionLen.toInt)]

def Meets (r t : Int × Int) : Prop := ∃ x, r.1 ≤ x ∧ x < r.1 + r.2 ∧ t.1 ≤ x ∧ x < t.1 + t.2

/-- Every region starts where the one before it ends. -/
def Consecutive (stop : Int) : Int → List (Int × Int) → Prop
  | start, [] => start = stop
  | start, r :: rs => r.1 = start ∧ 0 ≤ r.2 ∧ Consecutive stop (start + r.2) rs

theorem Consecutive.inside {start stop : Int} {rs : List (Int × Int)} (row : Consecutive stop start rs) :
    start ≤ stop ∧ ∀ r ∈ rs, start ≤ r.1 ∧ r.1 + r.2 ≤ stop := by
  induction rs generalizing start with
  | nil => exact ⟨Int.le_of_eq row, fun r inside => absurd inside List.not_mem_nil⟩
  | cons r rs ih =>
    obtain ⟨first, nonneg, rest⟩ := row
    obtain ⟨le, others⟩ := ih rest
    refine ⟨by omega, fun t inside => ?_⟩
    rcases List.mem_cons.mp inside with rfl | later
    · omega
    · have bounds := others t later
      omega

theorem Consecutive.disjoint {start stop : Int} {rs : List (Int × Int)} (row : Consecutive stop start rs) :
    rs.Pairwise fun r t => ¬ Meets r t := by
  induction rs generalizing start with
  | nil => exact .nil
  | cons r rs ih =>
    obtain ⟨first, nonneg, rest⟩ := row
    refine .cons (fun t later => ?_) (ih rest)
    have bounds := (rest.inside).2 t later
    rintro ⟨x, _, high, low, _⟩
    omega

/-- A layout that holds what the counts ask for, with no quantity of it overflowed. -/
structure Super.SoundLayout (s : Super) (numInodes numData : Int) (len : Nat) : Prop where
  inodeTable : numInodes * 128 ≤ s.inodeRegionLen.toInt * 4096
  inodeBitmap : numInodes ≤ s.inodeBitmapLen.toInt * 32768
  dataBitmap : numData ≤ s.dataBitmapLen.toInt * 32768
  disjoint : s.regions.Pairwise fun r t => ¬ Meets r t
  inside : ∀ r ∈ s.regions, 0 ≤ r.1 ∧ (r.1 + r.2) * 4096 ≤ len
  bytes_exact : int32 (numInodes * 128) = numInodes * 128
  total_exact : Consecutive (totalBlocks s).toInt 0 s.regions

theorem blocksFor_bounds (x : Int) (low : -2147483648 ≤ x) (high : x < 2147483648) :
    x ≤ blocksFor x 4096 * 4096 ∧ blocksFor x 4096 * 4096 ≤ x + 8191 := by
  have parts := Int.mul_tdiv_add_tmod x 4096
  have above := Int.tmod_lt_of_pos x (show (0 : Int) < 4096 by decide)
  have below := Int.lt_tmod_of_pos x (show (0 : Int) < 4096 by decide)
  unfold blocksFor
  split
  · rw [int32_eq (by omega) (by omega)]
    omega
  · omega

theorem int32_range (x : Int) : -2147483648 ≤ int32 x ∧ int32 x < 2147483648 := by
  unfold int32
  rw [Int.bmod_def]
  split <;> omega

/- What mkfs computes for any two counts: only the bytes of the inode table and the sum of
all blocks can overflow. -/
section Layout

variable {numInodes numData : Int}

theorem mkfs_fields (inodes : 32 ≤ numInodes) (data : 32 ≤ numData) (inodes_lt : numInodes < 2147483648)
    (data_lt : numData < 2147483648) :
    (mkfsSuper numInodes numData).Fields numData ((numInodes.toNat + 32767) / 32768 : Nat)
      ((numData.toNat + 32767) / 32768 : Nat) (blocksFor (int32 (numInodes * 128)) 4096) := by
  have bits := blocksFor_eq (n := numInodes) (by omega) inodes_lt (w := 32768) (by decide)
  have dataBits := blocksFor_eq (n := numData) (by omega) data_lt (w := 32768) (by decide)
  have range := int32_range (numInodes * 128)
  have records := blocksFor_bounds _ range.1 range.2
  exact mkfsSuper_fields bits dataBits rfl (by omega) (by omega) (by omega) (by omega) data_lt

/-- With neither overflow, the regions follow each other up to the last block. -/
theorem Super.Fields.soundLayout {s : Super} {T len : Nat}
    (fields : s.Fields numData ((numInodes.toNat + 32767) / 32768 : Nat) ((numData.toNat + 32767) / 32768 : Nat) T)
    (inodes : 32 ≤ numInodes) (data : 32 ≤ numData) (table : T = (numInodes.toNat + 31) / 32)
    (bytes : numInodes * 128 < 2147483648) (blocks : imageBlocks numInodes.toNat numData.toNat < 2147483648)
    (image : 4096 * imageBlocks numInodes.toNat numData.toNat ≤ len) : s.SoundLayout numInodes numData len := by
  unfold imageBlocks at blocks image
  have total := fields.total
  rw [int32_eq (by omega) (by omega)] at total
  have row : Consecutive (totalBlocks s).toInt 0 s.regions := by
    unfold Super.regions
    simp only [Consecutive, fields.inodeBitmapAddr, fields.inodeBitmapLen, fields.dataBitmapAddr, fields.dataBitmapLen,
      fields.inodeRegionAddr, fields.inodeRegionLen, fields.dataRegionAddr, fields.dataRegionLen, total, true_and]
    omega
  refine ⟨?_, ?_, ?_, row.disjoint, fun r mem => ?_, int32_eq (by omega) bytes, row⟩
  · rw [fields.inodeRegionLen]
    omega
  · rw [fields.inodeBitmapLen]
    omega
  · rw [fields.dataBitmapLen]
    omega
  · have bounds := row.inside.2 r mem
    rw [total] at bounds
    omega

end Layout

/-- A pwrite that succeeds makes the file as long as it has to be. -/
theorem pwrite_len {d d' : Disk} {buf : Nat → Byte} {count : Nat} {offset : Int}
    (written : pwrite d buf count offset = some d') : 0 ≤ offset ∧ d'.len = max d.len (offset.toNat + count) := by
  by_cases negative : offset < 0
  · rw [pwrite, if_pos negative] at written
    cases written
  · refine ⟨by omega, ?_⟩
    rw [pwrite, if_neg negative, Disk.write] at written
    split at written
    · cases written
      dsimp only
      omega
    · cases written
      dsimp only
      omega

theorem pwrite_grows {d d' : Disk} {buf : Nat → Byte} {count : Nat} {offset : Int}
    (written : pwrite d buf count offset = some d') : d.len ≤ d'.len := by
  rw [(pwrite_len written).2]
  exact Nat.le_max_left _ _

theorem pwrite_bounded {d d' : Disk} {buf : Nat → Byte} {w : Word} {n : Nat} (bounded : d.len ≤ 2147483648 + n)
    (written : pwrite d buf n w.toInt = some d') : d'.len ≤ 2147483648 + n := by
  have len := (pwrite_len written).2
  have small := w.toInt_lt
  omega

theorem zeroBlocks_len {count : Nat} {d d' : Disk} (zeroed : (List.range' 1 count).foldlM zeroBlock d = some d') :
    (count = 0 → d' = d) ∧
      ∀ i : Nat, 1 ≤ i → i < 1 + count → 0 ≤ int32 (i * 4096) ∧ (int32 (i * 4096)).toNat + 4096 ≤ d'.len := by
  induction count generalizing d' with
  | zero => exact ⟨fun _ => (Option.some.inj zeroed).symm, fun i low high => absurd high (by omega)⟩
  | succ count ih =>
    rw [List.range'_1_concat, List.foldlM_append, Option.bind_eq_bind, Option.bind_eq_some_iff] at zeroed
    obtain ⟨e, front, last⟩ := zeroed
    rw [List.foldlM_cons, Option.bind_eq_bind, Option.bind_eq_some_iff] at last
    obtain ⟨x, written, same⟩ := last
    cases Option.some.inj same
    rw [zeroBlock] at written
    obtain ⟨nonneg, len⟩ := pwrite_len written
    refine ⟨fun none => absurd none (Nat.succ_ne_zero count), fun i low high => ?_⟩
    by_cases this : i = 1 + count
    · rw [this]
      exact ⟨nonneg, by omega⟩
    · obtain ⟨before, fits⟩ := (ih front).2 i low (by omega)
      exact ⟨before, by omega⟩

/-- What a run of mkfs that completes says about its offsets and the length of the image. -/
structure Formatted (s : Super) (len : Nat) : Prop where
  zeroed : ∀ i : Nat, 1 ≤ i → (i : Int) < (totalBlocks s).toInt → 0 ≤ int32 (i * 4096) ∧
    (int32 (i * 4096)).toNat + 4096 ≤ len
  bounded : (totalBlocks s).toInt ≤ 1 → len ≤ 2147483648 + 4096

theorem formatted_of_mkfs {numInodes numData : Int} {stk : MkfsStack} {d : Disk}
    (completed : mkfs numInodes numData stk = .ok d) :
    32 ≤ numInodes ∧ 32 ≤ numData ∧ Formatted (mkfsSuper numInodes numData) d.len := by
  unfold mkfs at completed
  split at completed
  · cases completed
  · split at completed
    · cases completed
    · refine ⟨by omega, by omega, ?_⟩
      generalize mkfsSuper numInodes numData = s at completed ⊢
      dsimp only at completed
      split at completed
      · cases completed
      · rename_i zeroed
        obtain ⟨first, header, zeros⟩ := Option.bind_eq_some_iff.mp zeroed
        obtain ⟨parent, _, written⟩ := bind_ok.mp completed
        split at written
        · cases written
        · rename_i chain
          cases written
          obtain ⟨e₁, w₁, chain⟩ := Option.bind_eq_some_iff.mp chain
          obtain ⟨e₂, w₂, chain⟩ := Option.bind_eq_some_iff.mp chain
          obtain ⟨e₃, w₃, w₄⟩ := Option.bind_eq_some_iff.mp chain
          have grows := Nat.le_trans (Nat.le_trans (pwrite_grows w₁) (pwrite_grows w₂))
            (Nat.le_trans (pwrite_grows w₃) (pwrite_grows w₄))
          have loop := zeroBlocks_len zeros
          refine ⟨fun i low high => ?_, fun few => ?_⟩
          · obtain ⟨nonneg, fits⟩ := loop.2 i low (by omega)
            exact ⟨nonneg, Nat.le_trans fits grows⟩
          · have least := (pwrite_len header).2
            rw [← loop.1 (by omega)] at least
            have short : max 0 (0 + 40) ≤ 2147483648 + 4096 := by decide
            exact pwrite_bounded (pwrite_bounded (pwrite_bounded (pwrite_bounded (least ▸ short) w₁) w₂) w₃) w₄

section Completed

variable {numInodes numData : Int} {len : Nat} (inodes : 32 ≤ numInodes) (data : 32 ≤ numData)
  (inodes_lt : numInodes < 2147483648) (data_lt : numData < 2147483648)
  (formatted : Formatted (mkfsSuper numInodes numData) len)
include inodes data inodes_lt data_lt formatted

/-- With a product or a sum that wraps, the table is too small or the image too short. -/
theorem Formatted.exact (sound : (mkfsSuper numInodes numData).SoundLayout numInodes numData len) :
    numInodes * 128 < 2147483648 ∧ imageBlocks numInodes.toNat numData.toNat < 2147483648 := by
  have fields := mkfs_fields inodes data inodes_lt data_lt
  have range := int32_range (numInodes * 128)
  have records := blocksFor_bounds _ range.1 range.2
  have table := sound.inodeTable
  rw [fields.inodeRegionLen] at table
  have bytes : numInodes * 128 < 2147483648 := by
    by_contra large
    -- the product comes back at least 2^32 smaller
    have wrapped : int32 (numInodes * 128) ≤ numInodes * 128 - 4294967296 := by
      unfold int32
      rw [Int.bmod_def]
      split <;> omega
    omega
  refine ⟨bytes, ?_⟩
  by_contra large
  unfold imageBlocks at large
  have product : int32 (numInodes * 128) = numInodes * 128 := int32_eq (by omega) bytes
  rw [product] at records fields
  have total := fields.total
  have negative : (totalBlocks (mkfsSuper numInodes numData)).toInt < 0 := by
    rw [total]
    unfold int32
    rw [Int.bmod_def]
    split <;> omega
  -- no block is zeroed, and the four writes that follow are far from the end of the data
  have short := formatted.bounded (by omega)
  have region := sound.inside ((mkfsSuper numInodes numData).dataRegionAddr.toInt,
    (mkfsSuper numInodes numData).dataRegionLen.toInt) (by simp [Super.regions])
  rw [fields.dataRegionAddr, fields.dataRegionLen] at region
  omega

/-- With neither, every block of the regions has been zeroed. -/
theorem Formatted.sound (bytes : numInodes * 128 < 2147483648)
    (blocks : imageBlocks numInodes.toNat numData.toNat < 2147483648) :
    (mkfsSuper numInodes numData).SoundLayout numInodes numData len := by
  have fields := mkfs_fields inodes data inodes_lt data_lt
  have product : int32 (numInodes * 128) = numInodes * 128 := int32_eq (by omega) bytes
  have table : blocksFor (numInodes * 128) 4096 = (((numInodes * 128).toNat + 4095) / 4096 : Nat) :=
    blocksFor_eq (by omega) bytes (by decide)
  have same : ((numInodes * 128).toNat + 4095) / 4096 = (numInodes.toNat + 31) / 32 := by omega
  rw [product, table, same] at fields
  have total := fields.total
  have sum := blocks
  unfold imageBlocks at sum
  rw [int32_eq (by omega) (by omega)] at total
  -- block 2^19 would be zeroed at the offset -2^31
  have few : imageBlocks numInodes.toNat numData.toNat ≤ 524288 := by
    by_contra many
    unfold imageBlocks at many
    have zeroed := (formatted.zeroed 524288 (by decide) (by omega)).1
    exact absurd zeroed (by decide)
  have last := (formatted.zeroed (imageBlocks numInodes.toNat numData.toNat - 1)
    (by unfold imageBlocks; omega) (by unfold imageBlocks; omega)).2
  rw [int32_eq (by omega) (by omega)] at last
  have some : 1 ≤ imageBlocks numInodes.toNat numData.toNat := by
    unfold imageBlocks
    omega
  have image : 4096 * imageBlocks numInodes.toNat numData.toNat ≤ len := by
    generalize imageBlocks numInodes.toNat numData.toNat = n at last some
    omega
  exact fields.soundLayout inodes data rfl bytes blocks image

end Completed

/-- mkfs lays its image out soundly exactly when neither the bytes of the inode table nor the
number of all blocks overflows an int. -/
theorem mkfs_layout {numInodes numData : Int} {stk : MkfsStack} {d : Disk} (inodes_lt : numInodes < 2147483648)
    (data_lt : numData < 2147483648) (completed : mkfs numInodes numData stk = .ok d) :
    (mkfsSuper numInodes numData).SoundLayout numInodes numData d.len ↔
      numInodes * 128 < 2147483648 ∧ imageBlocks numInodes.toNat numData.toNat < 2147483648 := by
  obtain ⟨inodes, data, formatted⟩ := formatted_of_mkfs completed
  constructor
  · exact formatted.exact inodes data inodes_lt data_lt
  · rintro ⟨bytes, blocks⟩
    exact formatted.sound inodes data inodes_lt data_lt bytes blocks

theorem mkfs_layout_smallest : (mkfsSuper 32 32).SoundLayout 32 32 smallestDisk.len :=
  (mkfs_layout (by decide) (by decide) smallest_formatted).mpr ⟨by decide, by decide⟩

/-- 2^25 inodes have 2^32 bytes: the inode table gets no block, and mkfs completes. -/
theorem mkfs_table_overflows : ∃ d, mkfs 33554432 32 ⟨fun _ => 0, zeros⟩ = .ok d ∧
    (mkfsSuper 33554432 32).inodeRegionLen = 0 ∧ ¬ (mkfsSuper 33554432 32).SoundLayout 33554432 32 d.len := by
  have fields : (mkfsSuper 33554432 32).Fields 32 (1024 : Nat) (1 : Nat) (0 : Nat) :=
    mkfsSuper_fields (by decide) (by decide) (by decide) (by decide) (by decide) (by decide) (by decide) (by decide)
  have words : Words (mkfsSuper 33554432 32) 33554432 32 1024 1 0 :=
    fields.words (by decide) (by decide) (by decide) (by decide)
  have formatted := mkfs_writes_image (by decide) (by decide) words (by decide) (by decide) ⟨fun _ => 0, zeros⟩
  refine ⟨_, formatted, by decide, fun sound => ?_⟩
  exact absurd sound.inodeTable (by decide)

/-- The regions hold what ufs_init reads from them and what commit_dirty_to_disk writes to
them: the words and the records, of which the last may end with the region. -/
structure Super.Roomy (b : Build) (s : Super) : Prop where
  inodeBitmap_read : (sizeT b (getBitmapSz s.numInodes.toInt * 4) : Int) ≤ s.inodeBitmapLen.toInt * 4096
  dataBitmap_read : (sizeT b (getBitmapSz s.numData.toInt * 4) : Int) ≤ s.dataBitmapLen.toInt * 4096
  inodeTable_read : (sizeT b (128 * s.numInodes.toInt) : Int) ≤ s.inodeRegionLen.toInt * 4096
  inodeBitmap_write : ∀ i < s.ni, ((i / 32 * 4 + 4 : Nat) : Int) ≤ s.inodeBitmapLen.toInt * 4096
  inodeTable_write : ∀ i < s.ni, ((i * 128 + 128 : Nat) : Int) ≤ s.inodeRegionLen.toInt * 4096
  dataBitmap_write : ∀ k < s.nd, ((k / 32 * 4 + 4 : Nat) : Int) ≤ s.dataBitmapLen.toInt * 4096

theorem Super.Fields.roomy {s : Super} {numData : Int} {ni nd : Nat} (b : Build)
    (fields : s.Fields numData ((ni + 32767) / 32768 : Nat) ((nd + 32767) / 32768 : Nat) ((ni + 31) / 32 : Nat))
    (inodes : s.numInodes.toInt = ni) (data : s.numData.toInt = nd) (bytes : 128 * ni < 2147483648)
    (blocks : nd < 2147483600) : s.Roomy b := by
  have hni : s.ni = ni := by rw [Super.ni, inodes]; rfl
  have hnd : s.nd = nd := by rw [Super.nd, data]; rfl
  have records : sizeT b (128 * (ni : Int)) = 128 * ni := sizeT_ok b (n := 128 * ni) (by omega)
  constructor
  · rw [inodes, sizeT_words b (by omega), fields.inodeBitmapLen]
    omega
  · rw [data, sizeT_words b blocks, fields.dataBitmapLen]
    omega
  · rw [inodes, records, fields.inodeRegionLen]
    omega
  · intro i hi
    rw [hni] at hi
    rw [fields.inodeBitmapLen]
    omega
  · intro i hi
    rw [hni] at hi
    rw [fields.inodeRegionLen]
    omega
  · intro k hk
    rw [hnd] at hk
    rw [fields.dataBitmapLen]
    omega

theorem insideBitmap_words {n i : Nat} (small : n < 2147483600) (inside : insideBitmap (getBitmapSz n) i) :
    i < 32 * ((n + 31) / 32) := by
  rw [getBitmapSz_nat (by omega), insideBitmap_nat] at inside
  omega

/- The words that ufs_init reads hold one bit, also past the last inode or block. -/
section Bits

variable {s : Super} {ni nd I D T : Nat} (words : Placement s ni nd I D T) (len : Nat) (stk : MkfsStack)
include words

theorem image_inodeBits {i : Nat} (inside : insideBitmap (getBitmapSz ni) i) :
    getBitmap (wordAt (view (image s len stk).byte s.ib)) i = decide (i = 0) := by
  have small := words.small
  have fits := words.inodeBitmap_le
  have table := words.inodeTable_le
  have within := insideBitmap_words (n := ni) (by omega) inside
  exact bitmap_fresh (n := 32 * ((ni + 31) / 32)) (fun x hx => image_inodeBitmap words len stk (by omega)) within

theorem image_dataBits {k : Nat} (inside : insideBitmap (getBitmapSz nd) k) :
    getBitmap (wordAt (view (image s len stk).byte s.db)) k = decide (k = 0) := by
  have small := words.small
  have fits := words.dataBitmap_le
  have within := insideBitmap_words (n := nd) (by omega) inside
  exact bitmap_fresh (n := 32 * ((nd + 31) / 32)) (fun x hx => image_dataBitmap words len stk (by omega)) within

end Bits

theorem Ufs.Fresh.lookup {b : Build} {u : Ufs} {stk : Stack} (fresh : u.Fresh b stk) (name : CString) :
    ufsLookup b u 0 name = if name.chars = [46] ∨ name.chars = [46, 46] then .ok 0 else .ok (-1) := by
  have dir : (u.inodes 0).type = ufsDirectory := by
    rw [fresh.root]
    rfl
  refine (ufsLookup_dense name fresh.sound fresh.owned.placed ((fresh.allocated 0).mpr rfl) fresh.dense dir).trans ?_
  by_cases dot : name.chars = [46]
  · rw [if_pos (Or.inl dot), dot]
    rfl
  · by_cases dotdot : name.chars = [46, 46]
    · rw [if_pos (Or.inr dotdot), dotdot]
      rfl
    · have absent : List.lookup name.chars [([46], (0 : Nat)), ([46, 46], 0)] = none := by
        rw [List.lookup_cons, beq_false_of_ne dot, List.lookup_cons, beq_false_of_ne dotdot, List.lookup_nil]
      rw [if_neg (not_or.mpr ⟨dot, dotdot⟩), absent]

/-- What mkfs has formatted mounts, in either build: the regions follow each other and are
large enough, the superblock is the one computed, inode 0 and block 0 alone are in use, and
the root directory has the entries "." and ".." only. -/
theorem format_and_mount {numInodes numData : Int} (geometry : Geometry numInodes numData) (stk : MkfsStack)
    (b : Build) (dirtyInodeBp dirtyDataBp : Bitmap) :
    ∃ d u, mkfs numInodes numData stk = .ok d ∧ ufsInit b d 0 dirtyInodeBp dirtyDataBp = .ok u ∧
      u.s = mkfsSuper numInodes numData ∧ u.s.SoundLayout numInodes numData d.len ∧ u.s.Roomy b ∧
      (∀ i : Nat, insideBitmap u.inodeBpSz i → getBitmap u.inodeBp i = decide (i = 0)) ∧
      (∀ k : Nat, insideBitmap u.dataBpSz k → getBitmap u.dataBp k = decide (k = 0)) ∧
      u.inodes 0 = rootInode u.s ∧
      ∀ name : CString, ufsLookup b u 0 name =
        if name.chars = [46] ∨ name.chars = [46, 46] then .ok 0 else .ok (-1) := by
  have words := mkfsSuper_placement geometry
  have fields := geometry.fields
  have inodes := geometry.inodes
  have data := geometry.data
  have small := geometry.small
  have fresh := mounted_fresh words stk b dirtyInodeBp dirtyDataBp
  have parts := small
  unfold imageBlocks at parts
  have count : (mkfsSuper numInodes numData).numInodes.toInt = (numInodes.toNat : Nat) := words.inodes
  have dataCount : (mkfsSuper numInodes numData).numData.toInt = (numData.toNat : Nat) := words.blocks
  refine ⟨_, _, mkfs_ok geometry stk, ufsInit_image geometry stk b dirtyInodeBp dirtyDataBp, rfl,
    fields.soundLayout inodes data rfl (by omega) (by omega) (Nat.le_refl _), ?_, fun i inside => ?_,
    fun k inside => ?_, fresh.root, fresh.lookup⟩
  · exact fields.roomy b count dataCount (by omega) (by omega)
  · rw [Ufs.inodeBpSz] at inside
    exact image_inodeBits words _ stk (count ▸ inside)
  · rw [Ufs.dataBpSz] at inside
    exact image_dataBits words _ stk (dataCount ▸ inside)

theorem format_and_mount_smallest : ∃ d u, mkfs 32 32 ⟨fun _ => 0, zeros⟩ = .ok d ∧
    ufsInit .kernel d 0 (fun _ => 0) (fun _ => 0) = .ok u ∧ u.s = mkfsSuper 32 32 := by
  obtain ⟨d, u, formatted, init, super, _⟩ :=
    format_and_mount smallest_geometry ⟨fun _ => 0, zeros⟩ .kernel (fun _ => 0) (fun _ => 0)
  exact ⟨d, u, formatted, init, super⟩

end Icix
