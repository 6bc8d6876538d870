import Icix.Fs.Creat

/-! The image that mkfs writes for a geometry, and the state that ufs_init mounts
from a disk. A fresh image mounts to a state with the root directory only. -/
namespace Icix
open Bytes Ownership

def imageBlocks (ni nd : Nat) : Nat :=
  1 + (ni + 32767) / 32768 + (nd + 32767) / 32768 + (ni + 31) / 32 + nd

/-- What mkfs asserts, and an image that its int offsets reach. -/
structure Geometry (numInodes numData : Int) : Prop where
  inodes : 32 ≤ numInodes
  data : 32 ≤ numData
  small : 4096 * imageBlocks numInodes.toNat numData.toNat < 2147483648

/-- The division is rounded up. -/
theorem blocksFor_eq {n : Int} (low : 0 ≤ n) (high : n < 2147483648) {w : Nat} (more : 1 < w) :
    blocksFor n w = ((n.toNat + (w - 1)) / w : Nat) := by
  obtain ⟨n, rfl⟩ := Int.eq_ofNat_of_zero_le low
  have positive : 0 < w := by omega
  have quotient : (n : Int).tdiv w = ((n / w : Nat) : Int) := rfl
  have remainder : (n : Int).tmod w = ((n % w : Nat) : Int) := rfl
  have half : n / w ≤ n / 2 := Nat.div_le_div_left more (by decide)
  have less : n % w < w := Nat.mod_lt n positive
  have up : (n + (w - 1)) / w = n / w + (n % w + (w - 1)) / w := by
    have parts : n + (w - 1) = n % w + (w - 1) + w * (n / w) := by
      have split := Nat.mod_add_div n w
      omega
    rw [parts, Nat.add_mul_div_left _ _ positive, Nat.add_comm]
  rw [blocksFor, quotient, remainder, Int.toNat_natCast, up]
  generalize n / w = q at half
  generalize n % w = r at less
  by_cases whole : r = 0
  · have none : (r + (w - 1)) / w = 0 := Nat.div_eq_of_lt (by omega)
    rw [none, if_neg (by omega), Nat.add_zero]
  · have one : (r + (w - 1)) / w = 1 := Nat.div_eq_of_lt_le (by omega) (by omega)
    rw [one, if_pos (by omega), int32_eq (by omega) (by omega)]
    rfl

theorem ofInt_toInt {x : Int} (low : -2147483648 ≤ x) (high : x < 2147483648) : (BitVec.ofInt 32 x).toInt = x := by
  rw [BitVec.toInt_ofInt]
  exact int32_eq low high

theorem toNat_of_toInt {w : Word} {n : Nat} (value : w.toInt = n) : w.toNat = n := by
  have parts := BitVec.toInt_eq_toNat_cond w
  split at parts <;> omega

/-- The ints of a superblock whose bitmaps and inode table take I, D and T blocks. -/
structure Super.Fields (s : Super) (numData I D T : Int) : Prop where
  inodeBitmapAddr : s.inodeBitmapAddr.toInt = 1
  inodeBitmapLen : s.inodeBitmapLen.toInt = I
  dataBitmapAddr : s.dataBitmapAddr.toInt = 1 + I
  dataBitmapLen : s.dataBitmapLen.toInt = D
  inodeRegionAddr : s.inodeRegionAddr.toInt = 1 + I + D
  inodeRegionLen : s.inodeRegionLen.toInt = T
  dataRegionAddr : s.dataRegionAddr.toInt = 1 + I + D + T
  dataRegionLen : s.dataRegionLen.toInt = numData
  total : (totalBlocks s).toInt = int32 (1 + I + D + T + numData)

/-- None of them overflows but the sum of all blocks, when I, D and T are small. -/
theorem mkfsSuper_fields {numInodes numData I D T : Int} (bits : blocksFor numInodes 32768 = I)
    (dataBits : blocksFor numData 32768 = D) (records : blocksFor (int32 (numInodes * 128)) 4096 = T)
    (boundI : 0 ≤ I ∧ I ≤ 524288) (boundD : 0 ≤ D ∧ D ≤ 524288) (boundT : -1048576 ≤ T ∧ T ≤ 1048576)
    (data : 0 ≤ numData) (data_lt : numData < 2147483648) :
    (mkfsSuper numInodes numData).Fields numData I D T := by
  have first : int32 (1 + I) = 1 + I := int32_eq (by omega) (by omega)
  have second : int32 (1 + I + D) = 1 + I + D := int32_eq (by omega) (by omega)
  unfold mkfsSuper
  simp only [bits, dataBits, records, first, second]
  refine ⟨rfl, ofInt_toInt (by omega) (by omega), ofInt_toInt (by omega) (by omega), ofInt_toInt (by omega) (by omega),
    ofInt_toInt (by omega) (by omega), ofInt_toInt (by omega) (by omega), ofInt_toInt (by omega) (by omega),
    ofInt_toInt (by omega) (by omega), ?_⟩
  have one : (1 : Word) = BitVec.ofInt 32 1 := rfl
  simp only [totalBlocks]
  rw [one, ← BitVec.ofInt_add, ← BitVec.ofInt_add, ← BitVec.ofInt_add, ← BitVec.ofInt_add, BitVec.toInt_ofInt]
  rfl

/-- The words of a superblock whose bitmaps and inode table take I, D and T blocks. -/
structure Words (s : Super) (ni nd I D T : Nat) : Prop where
  inodeBitmap : s.inodeBitmapAddr.toNat = 1
  dataBitmap : s.dataBitmapAddr.toNat = 1 + I
  inodeTable : s.inodeRegionAddr.toNat = 1 + I + D
  data : s.dataRegionAddr.toNat = 1 + I + D + T
  total : (totalBlocks s).toNat = 1 + I + D + T + nd
  inodes : s.numInodes.toInt = ni
  blocks : s.numData.toInt = nd

/-- The regions are as large as what they hold, and the image is small. -/
structure Placement (s : Super) (ni nd I D T : Nat) : Prop extends Words s ni nd I D T where
  inodeBitmap_le : 4 * ((ni + 31) / 32) ≤ 4096 * I
  dataBitmap_le : 4 * ((nd + 31) / 32) ≤ 4096 * D
  inodeTable_le : 128 * ni ≤ 4096 * T
  inodes_pos : 32 ≤ ni
  blocks_pos : 32 ≤ nd
  small : 4096 * (1 + I + D + T + nd) < 2147483648

theorem Super.Fields.words {s : Super} {numData : Int} {ni nd I D T : Nat} (fields : s.Fields numData I D T)
    (inodes : s.numInodes.toInt = ni) (blocks : s.numData.toInt = nd) (data : numData = nd)
    (small : 1 + I + D + T + nd < 2147483648) : Words s ni nd I D T := by
  subst data
  have total := fields.total
  rw [int32_eq (by omega) (by omega)] at total
  exact ⟨toNat_of_toInt fields.inodeBitmapAddr, toNat_of_toInt fields.dataBitmapAddr,
    toNat_of_toInt fields.inodeRegionAddr, toNat_of_toInt fields.dataRegionAddr, toNat_of_toInt total, inodes, blocks⟩

theorem bitmap_blocks (n : Nat) : 4 * ((n + 31) / 32) ≤ 4096 * ((n + 32767) / 32768) := by omega

theorem table_blocks (n : Nat) : 128 * n ≤ 4096 * ((n + 31) / 32) := by omega

theorem Geometry.fields {numInodes numData : Int} (geometry : Geometry numInodes numData) :
    (mkfsSuper numInodes numData).Fields numData ((numInodes.toNat + 32767) / 32768 : Nat)
      ((numData.toNat + 32767) / 32768 : Nat) ((numInodes.toNat + 31) / 32 : Nat) := by
  have inodes := geometry.inodes
  have data := geometry.data
  have small := geometry.small
  unfold imageBlocks at small
  have bits := blocksFor_eq (n := numInodes) (by omega) (by omega) (w := 32768) (by decide)
  have dataBits := blocksFor_eq (n := numData) (by omega) (by omega) (w := 32768) (by decide)
  have product : int32 (numInodes * 128) = numInodes * 128 := int32_eq (by omega) (by omega)
  have records := blocksFor_eq (n := numInodes * 128) (by omega) (by omega) (w := 4096) (by decide)
  have same : ((numInodes * 128).toNat + 4095) / 4096 = (numInodes.toNat + 31) / 32 := by omega
  rw [same] at records
  exact mkfsSuper_fields bits dataBits (product.symm ▸ records) (by omega) (by omega) (by omega) (by omega) (by omega)

theorem mkfsSuper_placement {numInodes numData : Int} (geometry : Geometry numInodes numData) :
    Placement (mkfsSuper numInodes numData) numInodes.toNat numData.toNat
      ((numInodes.toNat + 32767) / 32768) ((numData.toNat + 32767) / 32768) ((numInodes.toNat + 31) / 32) := by
  have low := geometry.inodes
  have lowData := geometry.data
  have small := geometry.small
  have fields := geometry.fields
  unfold imageBlocks at small
  have inodes : ((numInodes.toNat : Nat) : Int) = numInodes := by omega
  have data : ((numData.toNat : Nat) : Int) = numData := by omega
  have count : (mkfsSuper numInodes numData).numInodes.toInt = numInodes := ofInt_toInt (by omega) (by omega)
  have blocks : (mkfsSuper numInodes numData).numData.toInt = numData := ofInt_toInt (by omega) (by omega)
  have words := fields.words (count.trans inodes.symm) (blocks.trans data.symm) data.symm (by omega)
  exact ⟨words, bitmap_blocks _, bitmap_blocks _, table_blocks _, by omega, by omega, small⟩

theorem pwrite_inside {d : Disk} {offset count : Nat} (fits : offset + count ≤ d.len) (buf : Nat → Byte) :
    pwrite d buf count offset = some { d with byte := blit d.byte offset count buf } := by
  have nonneg : ¬ (offset : Int) < 0 := by omega
  simp only [pwrite, if_neg nonneg, Int.toNat_natCast, Disk.write, if_pos fits]

theorem pwrite_past {d : Disk} {offset count : Nat} (past : d.len < offset + count) (buf : Nat → Byte) :
    pwrite d buf count offset = some
      { len := offset + count, byte := blit (fun x => if x < d.len then d.byte x else 0) offset count buf } := by
  have nonneg : ¬ (offset : Int) < 0 := by omega
  have outside : ¬ offset + count ≤ d.len := by omega
  simp only [pwrite, if_neg nonneg, Int.toNat_natCast, Disk.write, if_neg outside]

/-- The disk after the superblock and the zeros before block i have been written. -/
structure Zeroed (s : Super) (i : Nat) (d : Disk) : Prop where
  low : 40 ≤ d.len
  high : d.len ≤ 4096 * i
  len : 2 ≤ i → d.len = 4096 * i
  bytes : d.byte = fun x => if x < 40 then s.bytes x else 0

theorem zeroBlock_zeroed {s : Super} {i : Nat} {d : Disk} (low : 1 ≤ i) (high : 4096 * i < 2147483648)
    (zeroed : Zeroed s i d) : ∃ d', zeroBlock d i = some d' ∧ Zeroed s (i + 1) d' := by
  have least := zeroed.low
  have most := zeroed.high
  have offset : int32 (i * 4096) = ((4096 * i : Nat) : Int) := by
    rw [int32_eq (by omega) (by omega)]
    omega
  have past : d.len < 4096 * i + 4096 := by omega
  have size : 4096 * i + 4096 = 4096 * (i + 1) := by omega
  refine ⟨_, by rw [zeroBlock, offset, pwrite_past past], ?_, Nat.le_of_eq size, fun _ => size, ?_⟩
  · show 40 ≤ 4096 * i + 4096
    omega
  · funext x
    simp only [blit, zeroed.bytes]
    by_cases head : x < 40
    · rw [if_neg (by omega), if_pos (by omega)]
    · simp only [if_neg head, ite_self]

/-- The image of a superblock: its bytes, the two bitmap blocks, the inode block and
the root directory's block. -/
def image (s : Super) (len : Nat) (stk : MkfsStack) : Disk where
  len := len
  byte :=
    blit (blit (blit (blit (fun x => if x < 40 then s.bytes x else 0) s.ib 4096 firstBitBlock)
      s.db 4096 firstBitBlock) s.it 4096 (blit stk.itable 0 128 (rootInode s).bytes))
      (4096 * s.dr) 4096 (dirBytes .host stk.parent 0 0)

theorem block_toInt {p : Word} (small : 4096 * p.toNat < 2147483648) :
    (p * 4096).toInt = ((4096 * p.toNat : Nat) : Int) := by
  rw [BitVec.toInt_eq_toNat_cond, block_addr_zero (by omega), if_pos (by omega)]

theorem pwrite_block {len : Nat} {p : Word} (fits : 4096 * p.toNat + 4096 ≤ len) (small : len < 2147483648)
    (m buf : Nat → Byte) : pwrite { len := len, byte := m } buf 4096 (p * 4096).toInt =
      some { len := len, byte := blit m (4096 * p.toNat) 4096 buf } := by
  rw [block_toInt (by omega)]
  exact @pwrite_inside { len := len, byte := m } _ _ fits buf

/- The five writes of mkfs, for a superblock whose regions take I, D and T blocks. -/
section Writes

variable {s : Super} {ni nd I D T : Nat} (words : Words s ni nd I D T) (some : 1 ≤ nd)
  (small : 4096 * (1 + I + D + T + nd) < 2147483648)
include words some small

theorem zeroBlocks_zeroed :
    ∃ d, (pwrite { len := 0, byte := fun _ => 0 } s.bytes 40 0).bind (fun d =>
      (List.range' 1 ((totalBlocks s).toInt.toNat - 1)).foldlM zeroBlock d) = .some d ∧
      d.len = 4096 * (1 + I + D + T + nd) ∧ d.byte = fun x => if x < 40 then s.bytes x else 0 := by
  have count : (totalBlocks s).toInt.toNat = 1 + I + D + T + nd := by
    rw [BitVec.toInt_eq_toNat_cond, words.total, if_pos (by omega)]
    rfl
  have first := @pwrite_past { len := 0, byte := fun _ => 0 } 0 40 (Nat.succ_pos 39) s.bytes
  have start : Zeroed s 1
      { len := 0 + 40, byte := blit (fun x => if x < 0 then 0 else 0) 0 40 s.bytes } := by
    refine ⟨Nat.le_refl 40, (by decide : 40 ≤ 4096 * 1), fun h => absurd h (by decide), ?_⟩
    funext x
    simp only [blit, Nat.zero_le, true_and, Nat.zero_add, Nat.sub_zero, ite_self]
  obtain ⟨d, loop, final⟩ := Runs.foldlM_interval (Zeroed s) 1 (I + D + T + nd)
    (fun i d low high => zeroBlock_zeroed low (by omega)) start
  have index : 1 + I + D + T + nd - 1 = I + D + T + nd := by omega
  have total : 1 + (I + D + T + nd) = 1 + I + D + T + nd := by omega
  rw [total] at final
  refine ⟨d, ?_, final.len (by omega), final.bytes⟩
  rw [count, index]
  exact (congrArg (Option.bind · _) first).trans loop

theorem mkfs_writes {d : Disk} (len : d.len = 4096 * (1 + I + D + T + nd))
    (bytes : d.byte = fun x => if x < 40 then s.bytes x else 0) (stk : MkfsStack) :
    ((pwrite d firstBitBlock 4096 (s.inodeBitmapAddr * 4096).toInt).bind fun d =>
      (pwrite d firstBitBlock 4096 (s.dataBitmapAddr * 4096).toInt).bind fun d =>
      (pwrite d (blit stk.itable 0 128 (rootInode s).bytes) 4096 (s.inodeRegionAddr * 4096).toInt).bind fun d =>
      pwrite d (dirBytes .host stk.parent 0 0) 4096 (s.dataRegionAddr * 4096).toInt) =
    .some (image s (4096 * (1 + I + D + T + nd)) stk) := by
  obtain ⟨size, m⟩ := d
  dsimp only at len bytes
  subst size
  have ib : 4096 * s.inodeBitmapAddr.toNat + 4096 ≤ 4096 * (1 + I + D + T + nd) := by
    rw [words.inodeBitmap]; omega
  have db : 4096 * s.dataBitmapAddr.toNat + 4096 ≤ 4096 * (1 + I + D + T + nd) := by
    rw [words.dataBitmap]; omega
  have table : 4096 * s.inodeRegionAddr.toNat + 4096 ≤ 4096 * (1 + I + D + T + nd) := by
    rw [words.inodeTable]; omega
  have data : 4096 * s.dataRegionAddr.toNat + 4096 ≤ 4096 * (1 + I + D + T + nd) := by
    rw [words.data]; omega
  simp only [pwrite_block ib small, pwrite_block db small, pwrite_block table small, pwrite_block data small,
    Option.bind_some, bytes]
  rfl

end Writes

/-- mkfs succeeds when its image is small, and this is what it writes. -/
theorem mkfs_writes_image {numInodes numData : Int} {ni nd I D T : Nat} (inodes : 32 ≤ numInodes) (data : 32 ≤ numData)
    (words : Words (mkfsSuper numInodes numData) ni nd I D T) (some : 1 ≤ nd)
    (small : 4096 * (1 + I + D + T + nd) < 2147483648) (stk : MkfsStack) :
    mkfs numInodes numData stk = .ok (image (mkfsSuper numInodes numData) (4096 * (1 + I + D + T + nd)) stk) := by
  obtain ⟨d, zeroed, len, bytes⟩ := zeroBlocks_zeroed words some small
  have writes := mkfs_writes words some small len bytes stk
  unfold mkfs
  rw [if_neg (by omega), if_neg (by omega)]
  simp only [zeroed, dirBlock_ok, Runs.ok_bind, writes]

theorem mkfs_ok {numInodes numData : Int} (geometry : Geometry numInodes numData) (stk : MkfsStack) :
    mkfs numInodes numData stk = .ok (image (mkfsSuper numInodes numData)
      (4096 * imageBlocks numInodes.toNat numData.toNat) stk) := by
  have data := geometry.data
  have words := mkfsSuper_placement geometry
  exact mkfs_writes_image geometry.inodes data words.toWords (by omega) words.small stk

/- What ufs_init takes from a disk with superblock s. -/
def mounted (d : Disk) (s : Super) (dirtyInodeBp dirtyDataBp : Bitmap) : Ufs where
  s := s
  inodeBp := wordAt (view d.byte s.ib)
  dataBp := wordAt (view d.byte s.db)
  inodes i := Inode.ofBytes (view (view d.byte s.it) (128 * i))
  dirtyInodeBp := dirtyInodeBp
  dirtyDataBp := dirtyDataBp
  disk := d

theorem readAt_ok {b : Build} {d : Disk} {addr : Word} {count : Nat} (positive : 0 < count)
    (fits : 4096 * addr.toNat + count ≤ d.len) (small : d.len ≤ b.limit) (lseekFail readFail : String) :
    readAt b d addr count lseekFail readFail = .ok (view d.byte (4096 * addr.toNat)) := by
  have limit := b.limit_lt
  have place : (addr * 4096).toNat = 4096 * addr.toNat := block_addr_zero (by omega)
  have inside : (addr * 4096).toNat < d.len := by
    rw [place]
    omega
  have seek := lseek_ok inside small
  simp only [readAt, seek, place, Disk.read, if_pos fits]

/- The bytes of a bitmap's words. -/
theorem sizeT_words (b : Build) {n : Nat} (small : n < 2147483600) :
    sizeT b (getBitmapSz n * 4) = 4 * ((n + 31) / 32) := by
  have fits : 4 * ((n + 31) / 32) < 4294967296 := by omega
  rw [getBitmapSz_nat (by omega), Int.mul_comm]
  exact sizeT_ok b fits

theorem ufsInit_ok {b : Build} {d : Disk} {s : Super} (header : 40 ≤ d.len)
    (bytes : ∀ x < 40, d.byte x = s.bytes x) (sound : s.Sound b d.len) (inodes : 0 < s.ni) (blocks : 0 < s.nd)
    (dirtyInodeBp dirtyDataBp : Bitmap) :
    ufsInit b d 0 dirtyInodeBp dirtyDataBp = .ok (mounted d s dirtyInodeBp dirtyDataBp) := by
  have small := sound.disk_le
  have limit := b.limit_lt
  have bitmap := sound.inodeBitmap_le
  have dataBitmap := sound.dataBitmap_le
  have table := sound.inodeTable_le
  have region := sound.data_le
  have ni : s.numInodes.toInt = (s.ni : Int) := by
    unfold Super.ni at inodes ⊢
    omega
  have nd : s.numData.toInt = (s.nd : Int) := by
    unfold Super.nd at blocks ⊢
    omega
  have records : sizeT b (128 * (s.ni : Int)) = 128 * s.ni := sizeT_ok b (n := 128 * s.ni) (by omega)
  have super : Super.ofBytes (view d.byte 0) = s := by
    have same : ∀ x < 40, view d.byte 0 x = s.bytes x := fun x hx => by
      rw [view_apply, Nat.zero_add]
      exact bytes x hx
    rw [Super.ofBytes_congr same, Super.ofBytes_bytes]
  unfold Super.ib at bitmap
  unfold Super.db at dataBitmap
  unfold Super.it at table
  unfold ufsInit
  simp only [Disk.read, Nat.zero_add, if_pos header, super, ni, nd,
    sizeT_words b (n := s.ni) (by omega), sizeT_words b (n := s.nd) (by omega), records]
  rw [readAt_ok (by omega) bitmap small, Runs.ok_bind, readAt_ok (by omega) dataBitmap small, Runs.ok_bind,
    readAt_ok (by omega) table small, Runs.ok_bind]
  rfl

theorem mounted_synced (d : Disk) (s : Super) (dirtyInodeBp dirtyDataBp : Bitmap) :
    (mounted d s dirtyInodeBp dirtyDataBp).Synced where
  inodeBit _ _ := rfl
  inode i _ := by
    refine Inode.ofBytes_congr (fun x _ => ?_)
    simp only [mounted, view_apply, Nat.add_assoc]
  dataBit _ _ := rfl

/-- The state mounted from a fresh image: inode 0 and data block 0 only are in use. -/
structure Ufs.Fresh (b : Build) (u : Ufs) (stk : Stack) : Prop where
  sound : u.Sound b
  inodes_pos : 32 ≤ u.s.ni
  blocks_pos : 32 ≤ u.s.nd
  outside : 4096 ≤ u.s.ib ∧ 4096 ≤ u.s.db ∧ 4096 ≤ u.s.it ∧ 1 ≤ u.s.dr
  header : ∀ x < 40, u.disk.byte x = u.s.bytes x
  inodeBits : ∀ i : Nat, i < u.s.ni → getBitmap u.inodeBp i = decide (i = 0)
  dataBits : ∀ k : Nat, k < u.s.nd → getBitmap u.dataBp k = decide (k = 0)
  root : u.inodes 0 = rootInode u.s
  block : ∀ x < 4096, u.disk.byte (4096 * u.s.dr + x) = dirBytes .host stk 0 0 x
  synced : u.Synced

theorem Placement.sound {s : Super} {ni nd I D T : Nat} (words : Placement s ni nd I D T) (b : Build) :
    s.Sound b (4096 * (1 + I + D + T + nd)) := by
  have bitmap := words.inodeBitmap_le
  have dataBitmap := words.dataBitmap_le
  have table := words.inodeTable_le
  have small := words.small
  have hni : s.ni = ni := by rw [Super.ni, words.inodes]; rfl
  have hnd : s.nd = nd := by rw [Super.nd, words.blocks]; rfl
  have hib : s.ib = 4096 * 1 := congrArg (4096 * ·) words.inodeBitmap
  have hdb : s.db = 4096 * (1 + I) := congrArg (4096 * ·) words.dataBitmap
  have hit : s.it = 4096 * (1 + I + D) := congrArg (4096 * ·) words.inodeTable
  have hdr : s.dr = 1 + I + D + T := words.data
  have limit : 2147483648 ≤ b.limit := by cases b <;> decide
  generalize hn : (ni + 31) / 32 = n at bitmap
  generalize hd : (nd + 31) / 32 = d at dataBitmap
  constructor
  · omega
  · rw [hni, hn]; omega
  · rw [hnd, hd]; omega
  · rw [hni]; omega
  · rw [hnd]; omega
  · intro x inside other
    unfold Super.InInodeBitmap at inside
    unfold Super.InDataBitmap at other
    rw [hni, hn] at inside
    omega
  · intro x inside other
    unfold Super.InInodeBitmap at inside
    unfold Super.InInodeTable at other
    rw [hni, hn] at inside
    omega
  · intro x inside other
    unfold Super.InDataBitmap at inside
    unfold Super.InInodeTable at other
    rw [hnd, hd] at inside
    omega
  · intro x inside other
    unfold Super.InMeta Super.InInodeBitmap Super.InDataBitmap Super.InInodeTable at inside
    unfold Super.InData at other
    rw [hni, hnd, hn, hd] at inside
    omega

theorem firstBit (i : Nat) :
    getBitmap (fun w => if w = 0 then 0x80000000 else 0) i = decide (i = 0) := by
  have index : bitmapWord (i : Int) = i / 32 := rfl
  rw [getBitmap, WordBits.testBit_eq_getLsbD _ _ (bitmapShift_lt i), index]
  by_cases first : i < 32
  · have word : i / 32 = 0 := by omega
    have all : ∀ i < 32, (0x80000000#32).getLsbD (bitmapShift (i : Nat)) = decide (i = 0) := by decide
    rw [if_pos word]
    exact all i first
  · have word : ¬ i / 32 = 0 := by omega
    have other : ¬ i = 0 := by omega
    rw [if_neg word]
    simp only [other, decide_false]
    exact BitVec.getLsbD_zero

/-- A bitmap region that starts with mkfs's block and has zeros after it. -/
theorem bitmap_fresh {m : Nat → Byte} {base n : Nat}
    (bytes : ∀ x < 4 * ((n + 31) / 32), m (base + x) = firstBitBlock x) {i : Nat} (hi : i < n) :
    getBitmap (wordAt (view m base)) i = decide (i = 0) := by
  rw [← firstBit i]
  apply getBitmap_congr
  have same : wordAt (view m base) (i / 32) = wordAt firstBitBlock (i / 32) :=
    wordAt_congr (fun k hk => bytes _ (by omega))
  rw [same]
  exact wordAt_wordsBytes _ _

theorem firstBitBlock_rest {x : Nat} (rest : 4096 ≤ x) : firstBitBlock x = 0 := by
  have other : ¬ x / 4 = 0 := by omega
  simp [firstBitBlock, wordsBytes, other, wordByte]

section Image

variable {s : Super} {ni nd I D T : Nat} (words : Placement s ni nd I D T) (len : Nat) (stk : MkfsStack)
include words

theorem Placement.regions : s.ib = 4096 ∧ s.db = 4096 * (1 + I) ∧ s.it = 4096 * (1 + I + D) ∧
    s.dr = 1 + I + D + T ∧ 0 < I ∧ 0 < D ∧ 0 < T := by
  have bitmap := words.inodeBitmap_le
  have dataBitmap := words.dataBitmap_le
  have table := words.inodeTable_le
  have inodes := words.inodes_pos
  have blocks := words.blocks_pos
  exact ⟨congrArg (4096 * ·) words.inodeBitmap, congrArg (4096 * ·) words.dataBitmap,
    congrArg (4096 * ·) words.inodeTable, words.data, by omega, by omega, by omega⟩

theorem image_header {x : Nat} (hx : x < 40) : (image s len stk).byte x = s.bytes x := by
  obtain ⟨hib, hdb, hit, hdr, hI, hD, hT⟩ := words.regions
  dsimp only [image]
  rw [blit_outside _ _ (by omega), blit_outside _ _ (by omega), blit_outside _ _ (by omega),
    blit_outside _ _ (by omega), if_pos hx]

theorem image_inodeBitmap {x : Nat} (hx : x < 4096 * I) :
    (image s len stk).byte (s.ib + x) = firstBitBlock x := by
  obtain ⟨hib, hdb, hit, hdr, hI, hD, hT⟩ := words.regions
  dsimp only [image]
  rw [blit_outside _ _ (by omega), blit_outside _ _ (by omega), blit_outside _ _ (by omega)]
  by_cases first : x < 4096
  · exact blit_inside _ _ first
  · rw [blit_outside _ _ (by omega), if_neg (by omega), firstBitBlock_rest (by omega)]

theorem image_dataBitmap {x : Nat} (hx : x < 4096 * D) :
    (image s len stk).byte (s.db + x) = firstBitBlock x := by
  obtain ⟨hib, hdb, hit, hdr, hI, hD, hT⟩ := words.regions
  dsimp only [image]
  rw [blit_outside _ _ (by omega), blit_outside _ _ (by omega)]
  by_cases first : x < 4096
  · exact blit_inside _ _ first
  · rw [blit_outside _ _ (by omega), blit_outside _ _ (by omega), if_neg (by omega),
      firstBitBlock_rest (by omega)]

theorem image_root {x : Nat} (hx : x < 128) : (image s len stk).byte (s.it + x) = (rootInode s).bytes x := by
  obtain ⟨hib, hdb, hit, hdr, hI, hD, hT⟩ := words.regions
  have inside := blit_inside stk.itable (rootInode s).bytes (a := 0) hx
  rw [Nat.zero_add] at inside
  dsimp only [image]
  rw [blit_outside _ _ (by omega), blit_inside _ _ (by omega), inside]

theorem mounted_fresh (b : Build) (dirtyInodeBp dirtyDataBp : Bitmap) :
    (mounted (image s (4096 * (1 + I + D + T + nd)) stk) s dirtyInodeBp dirtyDataBp).Fresh b stk.parent := by
  obtain ⟨hib, hdb, hit, hdr, hI, hD, hT⟩ := words.regions
  have hni : s.ni = ni := by rw [Super.ni, words.inodes]; rfl
  have hnd : s.nd = nd := by rw [Super.nd, words.blocks]; rfl
  have bitmap := words.inodeBitmap_le
  have dataBitmap := words.dataBitmap_le
  refine ⟨words.sound b, ?_, ?_, ?_, fun x hx => image_header words _ stk hx, fun i hi => ?_, fun k hk => ?_, ?_,
    fun x hx => blit_inside _ _ hx, mounted_synced _ _ _ _⟩
  · exact hni.symm ▸ words.inodes_pos
  · exact hnd.symm ▸ words.blocks_pos
  · exact ⟨by show 4096 ≤ s.ib; omega, by show 4096 ≤ s.db; omega, by show 4096 ≤ s.it; omega,
      by show 1 ≤ s.dr; omega⟩
  · have inside : i < ni := hni ▸ hi
    exact bitmap_fresh (fun x hx => image_inodeBitmap words _ stk (by omega)) inside
  · have inside : k < nd := hnd ▸ hk
    exact bitmap_fresh (fun x hx => image_dataBitmap words _ stk (by omega)) inside
  · have bytes : ∀ x < 128, view (view (image s (4096 * (1 + I + D + T + nd)) stk).byte s.it) (128 * 0) x =
        (rootInode s).bytes x := by
      intro x hx
      rw [view_apply, view_apply, Nat.mul_zero, Nat.zero_add]
      exact image_root words _ stk hx
    exact (Inode.ofBytes_congr bytes).trans (Inode.ofBytes_bytes _)

end Image

theorem ufsInit_image {numInodes numData : Int} (geometry : Geometry numInodes numData) (stk : MkfsStack)
    (b : Build) (dirtyInodeBp dirtyDataBp : Bitmap) :
    let d := image (mkfsSuper numInodes numData) (4096 * imageBlocks numInodes.toNat numData.toNat) stk
    ufsInit b d 0 dirtyInodeBp dirtyDataBp = .ok (mounted d (mkfsSuper numInodes numData) dirtyInodeBp dirtyDataBp) := by
  have words := mkfsSuper_placement geometry
  have fresh := mounted_fresh words stk b dirtyInodeBp dirtyDataBp
  have inodes := fresh.inodes_pos
  have blocks := fresh.blocks_pos
  have pos : 0 < numData.toNat := by have := words.blocks_pos; omega
  refine ufsInit_ok ?_ fresh.header fresh.sound (by exact Nat.lt_of_lt_of_le (by decide) inodes)
    (by exact Nat.lt_of_lt_of_le (by decide) blocks) _ _
  show 40 ≤ 4096 * imageBlocks _ _
  unfold imageBlocks
  omega

/-- Both builds mount what mkfs has written, as a fresh state. -/
theorem mount_fresh {numInodes numData : Int} (geometry : Geometry numInodes numData) (stk : MkfsStack)
    (b : Build) (dirtyInodeBp dirtyDataBp : Bitmap) : ∃ d u, mkfs numInodes numData stk = .ok d ∧
      ufsInit b d 0 dirtyInodeBp dirtyDataBp = .ok u ∧ u.Fresh b stk.parent :=
  ⟨_, _, mkfs_ok geometry stk, ufsInit_image geometry stk b dirtyInodeBp dirtyDataBp,
    mounted_fresh (mkfsSuper_placement geometry) stk b dirtyInodeBp dirtyDataBp⟩

/-- mkfs checks all of the geometry but the image's size. -/
theorem geometry_of_mkfs {numInodes numData : Int} {stk : MkfsStack} {d : Disk}
    (small : 4096 * imageBlocks numInodes.toNat numData.toNat < 2147483648)
    (formatted : mkfs numInodes numData stk = .ok d) : Geometry numInodes numData := by
  unfold mkfs at formatted
  split at formatted
  · cases formatted
  · split at formatted
    · cases formatted
    · exact ⟨by omega, by omega, small⟩

/-- The state that ufs_init returned for an image that mkfs has written. -/
theorem fresh_of_mount {b : Build} {numInodes numData : Int} {stk : MkfsStack} {d : Disk}
    {dirtyInodeBp dirtyDataBp : Bitmap} {u : Ufs}
    (small : 4096 * imageBlocks numInodes.toNat numData.toNat < 2147483648)
    (formatted : mkfs numInodes numData stk = .ok d)
    (mounted : ufsInit b d 0 dirtyInodeBp dirtyDataBp = .ok u) : u.Fresh b stk.parent := by
  have geometry := geometry_of_mkfs small formatted
  obtain ⟨d', u', formatted', mounted', fresh⟩ := mount_fresh geometry stk b dirtyInodeBp dirtyDataBp
  rw [formatted] at formatted'
  cases Except.ok.inj formatted'
  rw [mounted] at mounted'
  cases Except.ok.inj mounted'
  exact fresh

/- The one slot and the one block in use in a fresh state. -/
section Fresh

variable {b : Build} {u : Ufs} {stk : Stack} (fresh : u.Fresh b stk)
include fresh

theorem Ufs.Fresh.allocated (i : Nat) : u.allocated i ↔ i = 0 := by
  have pos := fresh.inodes_pos
  constructor
  · rintro ⟨inside, bit⟩
    simpa [fresh.inodeBits i inside] using bit
  · rintro rfl
    exact ⟨by omega, fresh.inodeBits 0 (by omega)⟩

theorem Ufs.Fresh.region_real : u.s.dataRegionAddr ≠ -1 := by
  have blocks := fresh.blocks_pos
  have data := fresh.sound.data_le
  have small := fresh.sound.disk_le
  have limit := b.limit_lt
  intro same
  have top : (-1 : Word).toNat = 4294967295 := by decide
  have value : u.s.dr = 4294967295 := (congrArg BitVec.toNat same).trans top
  omega

theorem Ufs.Fresh.root_ptr (a : Nat) : (u.inodes 0).ptr a = if a = 0 then u.s.dataRegionAddr else -1 := by
  rw [fresh.root]
  by_cases inside : a < 30
  · simp only [rootInode, Inode.ptr, dif_pos inside, Fin.ext_iff]
    rfl
  · have other : ¬ a = 0 := by omega
    simp only [Inode.ptr, dif_neg inside, if_neg other]

theorem Ufs.Fresh.ref (i a d : Nat) : u.ref (i, a) = some d ↔ i = 0 ∧ a = 0 ∧ u.s.dr = d := by
  rw [ref_eq_some, fresh.allocated]
  constructor
  · rintro ⟨rfl, held, value⟩
    rw [fresh.root_ptr] at held value
    split at held
    · rename_i first
      rw [if_pos first] at value
      exact ⟨rfl, first, value⟩
    · exact absurd rfl held
  · rintro ⟨rfl, rfl, value⟩
    rw [fresh.root_ptr, if_pos rfl]
    exact ⟨rfl, fresh.region_real, value⟩

theorem Ufs.Fresh.tight : u.Tight := by
  have pos := fresh.blocks_pos
  intro d
  constructor
  · rintro ⟨k, hk, rfl, bit⟩
    have first : k = 0 := by simpa [fresh.dataBits k hk] using bit
    exact ⟨(0, 0), (fresh.ref 0 0 _).mpr ⟨rfl, rfl, by rw [first]; rfl⟩⟩
  · rintro ⟨⟨i, a⟩, held⟩
    obtain ⟨_, _, rfl⟩ := (fresh.ref i a d).mp held
    exact ⟨0, by omega, rfl, fresh.dataBits 0 (by omega)⟩

theorem Ufs.Fresh.owned : u.Owned where
  exclusive := by
    rintro ⟨i, a⟩ ⟨j, c⟩ d first second
    obtain ⟨rfl, rfl, _⟩ := (fresh.ref i a d).mp first
    obtain ⟨rfl, rfl, _⟩ := (fresh.ref j c d).mp second
    rfl
  covered := fresh.tight.covered

theorem Ufs.Fresh.tracked : u.Tracked where
  inodeBit i hi differs := absurd (fresh.synced.inodeBit i hi) differs
  inode i hi differs := absurd (fresh.synced.inode i hi) differs
  dataBit k hk differs := absurd (fresh.synced.dataBit k hk) differs

end Fresh

/- The smallest image, and one-letter names, for runs that are evaluated. -/
def zeros : Stack := ⟨fun _ => 0, fun _ => 0, fun _ => 0, fun _ => 0⟩

def smallestDisk : Disk := image (mkfsSuper 32 32) (4096 * imageBlocks 32 32) ⟨fun _ => 0, zeros⟩

def smallest : Ufs := mounted smallestDisk (mkfsSuper 32 32) (fun _ => 0) (fun _ => 0)

def letter (c : Byte) (h : c ≠ 0) : CString where
  mem k := if k = 0 then c else 0
  chars := [c]
  holds := ⟨rfl, h, rfl⟩

theorem smallest_geometry : Geometry 32 32 := ⟨by decide, by decide, by decide⟩

theorem smallest_formatted : mkfs 32 32 ⟨fun _ => 0, zeros⟩ = .ok smallestDisk :=
  mkfs_ok smallest_geometry _

theorem smallest_fresh (b : Build) : smallest.Fresh b zeros :=
  mounted_fresh (mkfsSuper_placement smallest_geometry) ⟨fun _ => 0, zeros⟩ b _ _

theorem smallest_mounted (b : Build) :
    ufsInit b smallestDisk 0 (fun _ => 0) (fun _ => 0) = .ok smallest := by
  have fresh := smallest_fresh b
  have inodes := fresh.inodes_pos
  have blocks := fresh.blocks_pos
  exact ufsInit_ok (by decide) fresh.header fresh.sound (Nat.lt_of_lt_of_le (Nat.succ_pos 31) inodes)
    (Nat.lt_of_lt_of_le (Nat.succ_pos 31) blocks) _ _

end Icix
