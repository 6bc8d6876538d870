import Icix.Library.Bytes
import Icix.Library.Ints
import Icix.Library.WordBits

/-! The file system's data and its access to the disk. The same source is built
twice: as a host tool over a file (fs/ufs.c) and into the kernel over a disk
driver (kernel/kernel/filesystem.c). Blocks have 4096 bytes, an inode 30 direct
pointers and 128 bytes, a directory entry 32 bytes, 128 of them to a block. -/
namespace Icix
open Bytes

inductive Build where
  | host | kernel
  deriving DecidableEq, Repr

/-- The ways a call does not return: exit or abort with its message, a failed
assertion, and an access outside an array, after which nothing is known. -/
inductive Fault where
  | exit (message : String)
  | assertion (condition : String)
  | outOfBounds
  deriving DecidableEq, Repr

/-- A value converted to the build's size_t, of 64 or 32 bits. -/
def sizeT (b : Build) (x : Int) : Nat :=
  match b with
  | .host => (x % 18446744073709551616).toNat
  | .kernel => (x % 4294967296).toNat

def ufsDirectory : Word := 0
def ufsRegularFile : Word := 1

/- The disk is an array of bytes. The host's is a file, which grows when it is
written past its end; the kernel's is any byte-array driver. -/
structure Disk where
  len : Nat
  byte : Nat → Byte

/-- The host refuses negative offsets only. The driver's offset is a uint32_t. -/
def Disk.lseek (b : Build) (d : Disk) (offset : Int) : Option Nat :=
  match b with
  | .host => if offset < 0 then none else some offset.toNat
  | .kernel =>
    let o := (offset % 4294967296).toNat
    if o ≤ d.len then some o else none

/-- A read that comes back shorter than count is a failure to every caller. -/
def Disk.read (d : Disk) (cursor count : Nat) : Option (Nat → Byte) :=
  if cursor + count ≤ d.len then some (view d.byte cursor) else none

def Disk.write (b : Build) (d : Disk) (cursor : Nat) (buf : Nat → Byte) (count : Nat) : Option Disk :=
  if cursor + count ≤ d.len then some { d with byte := blit d.byte cursor count buf }
  else match b with
    | .host =>
      some { len := cursor + count
             byte := blit (fun x => if x < d.len then d.byte x else 0) cursor count buf }
    | .kernel => none

def Read (b : Build) (d : Disk) (addr : Word) (count : Nat) : Option (Nat → Byte) :=
  (d.lseek b addr.toInt).bind fun cursor => d.read cursor count

def Write (b : Build) (d : Disk) (addr : Word) (buf : Nat → Byte) (count : Nat) : Option Disk :=
  (d.lseek b addr.toInt).bind fun cursor => d.write b cursor buf count

/-- What is called of a disk to read it, over a state that has the cursor: a seek to an unsigned
offset, a read from the cursor on, and Read. -/
structure Drive (σ : Type) where
  lseek (s : σ) (offset : Word) : Option σ
  read (s : σ) (count : Nat) : Option ((Nat → Byte) × σ)
  Read (s : σ) (addr : Word) (count : Nat) : Option ((Nat → Byte) × σ)

/- The state is the cursor alone. -/
def Disk.drive (b : Build) (d : Disk) : Drive Nat where
  lseek _ offset := d.lseek b offset.toNat
  read cursor count := (d.read cursor count).map fun bytes => (bytes, cursor + count)
  Read _ addr count := (Icix.Read b d addr count).map fun bytes => (bytes, addr.toNat + count)

@[simp] theorem drive_lseek (b : Build) (d : Disk) (cursor : Nat) (offset : Word) :
    (d.drive b).lseek cursor offset = d.lseek b offset.toNat := rfl

@[simp] theorem drive_read (b : Build) (d : Disk) (cursor count : Nat) :
    (d.drive b).read cursor count = (d.read cursor count).map fun bytes => (bytes, cursor + count) := rfl

@[simp] theorem drive_Read (b : Build) (d : Disk) (cursor : Nat) (addr : Word) (count : Nat) :
    (d.drive b).Read cursor addr count = (Icix.Read b d addr count).map fun bytes => (bytes, addr.toNat + count) := rfl

/- super_t: ten ints, in this order on the disk. -/
structure Super where
  inodeBitmapAddr : Word
  inodeBitmapLen : Word
  dataBitmapAddr : Word
  dataBitmapLen : Word
  inodeRegionAddr : Word
  inodeRegionLen : Word
  dataRegionAddr : Word
  dataRegionLen : Word
  numInodes : Word
  numData : Word
  deriving DecidableEq

def Super.words (s : Super) : Nat → Word
  | 0 => s.inodeBitmapAddr
  | 1 => s.inodeBitmapLen
  | 2 => s.dataBitmapAddr
  | 3 => s.dataBitmapLen
  | 4 => s.inodeRegionAddr
  | 5 => s.inodeRegionLen
  | 6 => s.dataRegionAddr
  | 7 => s.dataRegionLen
  | 8 => s.numInodes
  | _ => s.numData

def Super.bytes (s : Super) : Nat → Byte := wordsBytes s.words

def Super.ofBytes (m : Nat → Byte) : Super where
  inodeBitmapAddr := wordAt m 0
  inodeBitmapLen := wordAt m 1
  dataBitmapAddr := wordAt m 2
  dataBitmapLen := wordAt m 3
  inodeRegionAddr := wordAt m 4
  inodeRegionLen := wordAt m 5
  dataRegionAddr := wordAt m 6
  dataRegionLen := wordAt m 7
  numInodes := wordAt m 8
  numData := wordAt m 9

theorem Super.ofBytes_bytes (s : Super) : Super.ofBytes s.bytes = s := by
  simp only [Super.ofBytes, Super.bytes, wordAt_wordsBytes, Super.words]

theorem Super.ofBytes_congr {m n : Nat → Byte} (same : ∀ x < 40, m x = n x) :
    Super.ofBytes m = Super.ofBytes n := by
  have words : ∀ i < 10, wordAt m i = wordAt n i :=
    fun i hi => wordAt_congr (fun k hk => same _ (by omega))
  simp only [Super.ofBytes, words 0 (by decide), words 1 (by decide), words 2 (by decide),
    words 3 (by decide), words 4 (by decide), words 5 (by decide), words 6 (by decide),
    words 7 (by decide), words 8 (by decide), words 9 (by decide)]

theorem Super.ofBytes_inj {m n : Nat → Byte} : Super.ofBytes m = Super.ofBytes n ↔ ∀ x < 40, m x = n x := by
  refine ⟨fun same x hx => ?_, Super.ofBytes_congr⟩
  have words : ∀ i < 10, wordAt m i = wordAt n i
    | 0, _ => congrArg Super.inodeBitmapAddr same
    | 1, _ => congrArg Super.inodeBitmapLen same
    | 2, _ => congrArg Super.dataBitmapAddr same
    | 3, _ => congrArg Super.dataBitmapLen same
    | 4, _ => congrArg Super.inodeRegionAddr same
    | 5, _ => congrArg Super.inodeRegionLen same
    | 6, _ => congrArg Super.dataRegionAddr same
    | 7, _ => congrArg Super.dataRegionLen same
    | 8, _ => congrArg Super.numInodes same
    | 9, _ => congrArg Super.numData same
  have byte := wordAt_inj.mp (words (x / 4) (by omega)) (x % 4) (by omega)
  rwa [Nat.div_add_mod] at byte

/- The bounds of the loops for (int i = 0; i < num_inodes; ++i) and over num_data. -/
def Super.ni (s : Super) : Nat := s.numInodes.toInt.toNat
def Super.nd (s : Super) : Nat := s.numData.toInt.toNat

theorem Super.ni_lt (s : Super) : s.ni < 2147483648 := by
  have small : s.numInodes.toInt < 2147483648 := BitVec.toInt_lt
  unfold Super.ni
  omega

theorem Super.nd_lt (s : Super) : s.nd < 2147483648 := by
  have small : s.numData.toInt < 2147483648 := BitVec.toInt_lt
  unfold Super.nd
  omega

/- The first bytes of the bitmaps and of the inode table, and the first data block. -/
def Super.ib (s : Super) : Nat := 4096 * s.inodeBitmapAddr.toNat
def Super.db (s : Super) : Nat := 4096 * s.dataBitmapAddr.toNat
def Super.it (s : Super) : Nat := 4096 * s.inodeRegionAddr.toNat
def Super.dr (s : Super) : Nat := s.dataRegionAddr.toNat

/- inode_t: type, size and 30 direct pointers, each a 32-bit word. -/
@[ext] structure Inode where
  type : Word
  size : Word
  direct : Fin 30 → Word

def Inode.ptr (n : Inode) (a : Nat) : Word := if h : a < 30 then n.direct ⟨a, h⟩ else -1

def Inode.setPtr (n : Inode) (a : Nat) (w : Word) : Inode :=
  if h : a < 30 then { n with direct := Function.update n.direct ⟨a, h⟩ w } else n

def Inode.words (n : Inode) : Nat → Word
  | 0 => n.type
  | 1 => n.size
  | a + 2 => n.ptr a

def Inode.bytes (n : Inode) : Nat → Byte := wordsBytes n.words

def Inode.ofBytes (m : Nat → Byte) : Inode where
  type := wordAt m 0
  size := wordAt m 1
  direct a := wordAt m (a + 2)

theorem Inode.ofBytes_bytes (n : Inode) : Inode.ofBytes n.bytes = n := by
  apply Inode.ext
  · exact wordAt_wordsBytes _ 0
  · exact wordAt_wordsBytes _ 1
  · funext a
    have word : wordAt n.bytes (a + 2) = n.ptr a := wordAt_wordsBytes _ _
    exact word.trans (dif_pos a.isLt)

theorem Inode.ofBytes_congr {m n : Nat → Byte} (same : ∀ x < 128, m x = n x) :
    Inode.ofBytes m = Inode.ofBytes n := by
  apply Inode.ext
  · exact wordAt_congr (fun k hk => same _ (by omega))
  · exact wordAt_congr (fun k hk => same _ (by omega))
  · funext a
    exact wordAt_congr (fun k hk => same _ (by have := a.isLt; omega))

theorem Inode.ptr_setPtr (n : Inode) {a : Nat} (ha : a < 30) (w : Word) (c : Nat) :
    (n.setPtr a w).ptr c = if c = a then w else n.ptr c := by
  by_cases hc : c < 30
  · by_cases same : c = a
    · subst c
      simp [Inode.setPtr, Inode.ptr, ha]
    · simp [Inode.setPtr, Inode.ptr, ha, hc, same]
  · have other : c ≠ a := by omega
    simp [Inode.ptr, hc, other]

@[simp] theorem Inode.type_setPtr (n : Inode) (a : Nat) (w : Word) : (n.setPtr a w).type = n.type := by
  unfold Inode.setPtr
  split <;> rfl

@[simp] theorem Inode.size_setPtr (n : Inode) (a : Nat) (w : Word) : (n.setPtr a w).size = n.size := by
  unfold Inode.setPtr
  split <;> rfl

theorem Inode.ptr_lt {n : Inode} {a : Nat} (used : n.ptr a ≠ -1) : a < 30 := by
  by_contra outside
  simp [Inode.ptr, outside] at used

/- bitmap_t is a pointer to words; bit 0 is the most significant bit of word 0.
The count of 1 << (31 - i) is taken modulo 32, as the shift instruction does. -/
abbrev Bitmap := Nat → Word

def bitmapWord (i : Int) : Nat := (i.tdiv 32).toNat
def bitmapShift (i : Int) : Nat := ((31 - i) % 32).toNat

def setBitmap (b : Bitmap) (i : Int) : Bitmap := WordBits.setBit b (bitmapWord i) (bitmapShift i)
def resetBitmap (b : Bitmap) (i : Int) : Bitmap := WordBits.clearBit b (bitmapWord i) (bitmapShift i)
def getBitmap (b : Bitmap) (i : Int) : Bool := WordBits.testBit b (bitmapWord i) (bitmapShift i)

def getBitmapSz (n : Int) : Int := (int32 (n + 31)).tdiv 32

/-- The word that bit i lives in is one of the sz words of the array. -/
def insideBitmap (sz : Int) (i : Int) : Prop := 0 ≤ i.tdiv 32 ∧ i.tdiv 32 < sz

instance (sz i : Int) : Decidable (insideBitmap sz i) :=
  inferInstanceAs (Decidable (0 ≤ i.tdiv 32 ∧ i.tdiv 32 < sz))

theorem getBitmapSz_nat {n : Nat} (small : n ≤ 2147483616) : getBitmapSz n = ((n + 31) / 32 : Nat) := by
  have sum : int32 ((n : Int) + 31) = ((n + 31 : Nat) : Int) := int32_eq (by omega) (by omega)
  rw [getBitmapSz, sum]
  rfl

theorem insideBitmap_nat {sz i : Nat} : insideBitmap sz i ↔ i / 32 < sz := by
  have word : (i : Int).tdiv 32 = ((i / 32 : Nat) : Int) := rfl
  rw [insideBitmap, word]
  omega

theorem bitmapShift_lt (i : Int) : bitmapShift i < 32 := by
  unfold bitmapShift
  omega

/-- Two indices share a bit when they agree on word and shift count. -/
def SameBit (i j : Int) : Prop := bitmapWord j = bitmapWord i ∧ bitmapShift j = bitmapShift i

instance (i j : Int) : Decidable (SameBit i j) :=
  inferInstanceAs (Decidable (bitmapWord j = bitmapWord i ∧ bitmapShift j = bitmapShift i))

theorem sameBit_nat (i j : Nat) : SameBit i j ↔ j = i := by
  have hi : (i : Int).tdiv 32 = ((i / 32 : Nat) : Int) := rfl
  have hj : (j : Int).tdiv 32 = ((j / 32 : Nat) : Int) := rfl
  unfold SameBit bitmapWord bitmapShift
  rw [hi, hj]
  omega

theorem get_set (b : Bitmap) (i j : Int) :
    getBitmap (setBitmap b i) j = (decide (SameBit i j) || getBitmap b j) :=
  WordBits.testBit_setBit b _ _ (bitmapShift_lt i) (bitmapShift_lt j)

theorem get_reset (b : Bitmap) (i j : Int) :
    getBitmap (resetBitmap b i) j = (!decide (SameBit i j) && getBitmap b j) :=
  WordBits.testBit_clearBit b _ _ (bitmapShift_lt i) (bitmapShift_lt j)

@[simp] theorem get_set_nat (b : Bitmap) (i j : Nat) :
    getBitmap (setBitmap b i) j = (decide (j = i) || getBitmap b j) := by
  simp only [get_set, sameBit_nat]

theorem get_set_self (b : Bitmap) (i : Nat) : getBitmap (setBitmap b i) i = true := by
  simp only [get_set_nat, decide_true, Bool.true_or]

@[simp] theorem get_reset_nat (b : Bitmap) (i j : Nat) :
    getBitmap (resetBitmap b i) j = (!decide (j = i) && getBitmap b j) := by
  simp only [get_reset, sameBit_nat]

theorem getBitmap_congr {b c : Bitmap} {i : Nat} (same : b (i / 32) = c (i / 32)) :
    getBitmap b i = getBitmap c i := by
  have index : bitmapWord (i : Int) = i / 32 := rfl
  simp only [getBitmap, WordBits.testBit, index, same]

/- struct __ufs. The host's fd and the kernel's driver are the disk; the two
bitmap sizes are get_bitmap_sz of the superblock's counts. -/
structure Ufs where
  s : Super
  inodeBp : Bitmap
  dataBp : Bitmap
  inodes : Nat → Inode
  dirtyInodeBp : Bitmap
  dirtyDataBp : Bitmap
  disk : Disk

/- What of it ufs_init reads from the disk. -/
structure Volume where
  s : Super
  inodeBp : Bitmap
  dataBp : Bitmap
  inodes : Nat → Inode

abbrev Ufs.volume (u : Ufs) : Volume := ⟨u.s, u.inodeBp, u.dataBp, u.inodes⟩

def Ufs.inodeBpSz (u : Ufs) : Int := getBitmapSz u.s.numInodes.toInt
def Ufs.dataBpSz (u : Ufs) : Int := getBitmapSz u.s.numData.toInt

def Ufs.setInode (u : Ufs) (i : Nat) (n : Inode) : Ufs :=
  { u with inodes := Function.update u.inodes i n }

@[simp] theorem Ufs.setInode_disk (u : Ufs) (i : Nat) (n : Inode) : (u.setInode i n).disk = u.disk := rfl

def Ufs.allocated (u : Ufs) (i : Nat) : Prop := i < u.s.ni ∧ getBitmap u.inodeBp i = true

instance (u : Ufs) (i : Nat) : Decidable (u.allocated i) :=
  inferInstanceAs (Decidable (i < u.s.ni ∧ getBitmap u.inodeBp i = true))

end Icix
