import Icix.Dev.Initrd
import Icix.Fs.Mount

/-! An image of the host tool as the kernel's RAM disk: the same data blocks, read by
the host from the image file and by the kernel through the driver. -/
namespace Icix
open Bytes

/-- Read of kernel/kernel/filesystem.c over the driver: its result, the driver's
state and the buffer. -/
def kernelRead (memory : Word → Byte) (d : Initrd) (addr : Word) (buf : Nat → Byte) (count : Word) :
    Int × Initrd × (Nat → Byte) :=
  let (rc, d) := initrdLseek d addr
  if rc = -1 then (-1, d, buf)
  else
    let (rc, d, buf) := initrdRead memory d buf count
    if rc ≠ count then (-1, d, buf) else (0, d, buf)

/-- The boot loader has put the image file between the driver's two addresses. -/
structure Loaded (memory : Word → Byte) (d : Initrd) (file : Disk) : Prop where
  endAddr : d.endAddr.toNat = d.startAddr.toNat + file.len
  byte : ∀ i < file.len, memory (d.startAddr + BitVec.ofNat 32 i) = file.byte i

section Loaded

variable {memory : Word → Byte} {d : Initrd} {file : Disk} (loaded : Loaded memory d file)
include loaded

/-- A range that ends before the end of the image is read as the file has it. -/
theorem kernelRead_inside {addr count : Word} (buf : Nat → Byte)
    (inside : addr.toNat + count.toNat < file.len) :
    ∃ e out, kernelRead memory d addr buf count = (0, e, out) ∧
      ∀ k < count.toNat, out k = file.byte (addr.toNat + k) := by
  have stop := loaded.endAddr
  have high := d.endAddr.isLt
  have seek : initrdLseek d addr = (0, { d with cursor := addr }) := initrdLseek_ok (by omega)
  have within : ({ d with cursor := addr } : Initrd).startAddr.toNat +
      ({ d with cursor := addr } : Initrd).cursor.toNat + count.toNat < d.endAddr.toNat := by
    dsimp only
    omega
  have read : initrdRead memory { d with cursor := addr } buf count = _ := initrdRead_ok within
  have codes : (0 : Word) ≠ -1 := by decide
  unfold kernelRead
  simp only [seek, read, codes, if_false, ne_eq, not_true]
  refine ⟨_, _, rfl, fun k hk => ?_⟩
  rw [if_pos hk, ← loaded.byte _ (by omega)]
  congr 1
  apply BitVec.eq_of_toNat_eq
  rw [source_toNat (by dsimp only; omega), BitVec.toNat_add, BitVec.toNat_ofNat]
  dsimp only
  omega

/-- A range that ends with the image is refused. -/
theorem kernelRead_end {addr count : Word} (buf : Nat → Byte) (positive : 0 < count.toNat)
    (last : addr.toNat + count.toNat = file.len) :
    kernelRead memory d addr buf count = (-1, { d with cursor := addr }, buf) := by
  have stop := loaded.endAddr
  have high := d.endAddr.isLt
  have seek : initrdLseek d addr = (0, { d with cursor := addr }) := initrdLseek_ok (by omega)
  have read : initrdRead memory { d with cursor := addr } buf count = (0, { d with cursor := addr }, buf) := by
    apply initrdRead_refused
    · dsimp only
      omega
    · dsimp only
      omega
  have codes : (0 : Word) ≠ -1 := by decide
  have short : (0 : Word) ≠ count := fun same => by
    have none := congrArg BitVec.toNat same
    change 0 = count.toNat at none
    omega
  unfold kernelRead
  simp only [seek, read, codes, short, if_false, ne_eq, not_false_eq_true, if_true]

end Loaded

/-- The address of data block b, as the file system computes it. -/
def dataBlockAddr (s : Super) (b : Nat) : Word := (s.dataRegionAddr + BitVec.ofNat 32 b) * 4096

/-- The image ends with its last data block. -/
theorem dataBlockAddr_toNat {numInodes numData : Int} (geometry : Geometry numInodes numData) {b : Nat}
    (hb : b < numData.toNat) :
    (dataBlockAddr (mkfsSuper numInodes numData) b).toNat + 4096 * (numData.toNat - b) =
      4096 * imageBlocks numInodes.toNat numData.toNat := by
  have words := mkfsSuper_placement geometry
  have region := words.data
  have small := geometry.small
  unfold imageBlocks at *
  have block : ((mkfsSuper numInodes numData).dataRegionAddr + BitVec.ofNat 32 b).toNat =
      (mkfsSuper numInodes numData).dataRegionAddr.toNat + b := by
    rw [BitVec.toNat_add, BitVec.toNat_ofNat]
    omega
  rw [dataBlockAddr, block_addr_zero (by omega), block, region]
  omega

/-- Whatever the host tool has written to an image that mkfs made, the host reads every
data block of it, and the kernel reads the same bytes of every block but the last. -/
theorem kernel_reads_image {numInodes numData : Int} {stk : MkfsStack} {d₀ file : Disk}
    {memory : Word → Byte} {d : Initrd} {buf : Nat → Byte} {b : Nat}
    (small : 4096 * imageBlocks numInodes.toNat numData.toNat < 2147483648)
    (formatted : mkfs numInodes numData stk = .ok d₀) (written : file.len = d₀.len)
    (loaded : Loaded memory d file) (hb : b < numData.toNat) :
    ∃ bytes, Read .host file (dataBlockAddr (mkfsSuper numInodes numData) b) 4096 = some bytes ∧
      ((∃ e out, kernelRead memory d (dataBlockAddr (mkfsSuper numInodes numData) b) buf 4096 = (0, e, out) ∧
        ∀ k < 4096, out k = bytes k) ↔ b + 1 < numData.toNat) := by
  have geometry := geometry_of_mkfs small formatted
  have len : d₀.len = 4096 * imageBlocks numInodes.toNat numData.toNat := by
    rw [mkfs_ok geometry] at formatted
    rw [← Except.ok.inj formatted]
    rfl
  have addr := dataBlockAddr_toNat geometry hb
  generalize dataBlockAddr (mkfsSuper numInodes numData) b = a at addr ⊢
  have read : Read .host file a 4096 = some (view file.byte a.toNat) := by
    apply Read_ok
    · decide
    · omega
    · change file.len ≤ 2147483648
      omega
  refine ⟨_, read, ?_⟩
  have count : (4096 : Word).toNat = 4096 := by decide
  constructor
  · rintro ⟨e, out, done, _⟩
    by_contra full
    have last : a.toNat + (4096 : Word).toNat = file.len := by omega
    have refused := kernelRead_end loaded buf (by decide) last
    rw [refused] at done
    have codes : (-1 : Int) = 0 := congrArg Prod.fst done
    exact absurd codes (by decide)
  · intro more
    obtain ⟨e, out, done, bytes⟩ := kernelRead_inside loaded buf (by omega : a.toNat + (4096 : Word).toNat < _)
    exact ⟨e, out, done, bytes⟩

/- The smallest image at 2 MB. -/
def ramdisk : Initrd := ⟨0x200000, 0, 0x224000⟩

def ramdiskMemory : Word → Byte := fun a => smallestDisk.byte (a - 0x200000).toNat

theorem ramdisk_loaded : Loaded ramdiskMemory ramdisk smallestDisk where
  endAddr := by decide
  byte i hi := by
    have len : smallestDisk.len = 147456 := by decide
    have offset : ((0x200000 : Word) + BitVec.ofNat 32 i - 0x200000).toNat = i := by
      rw [BitVec.add_comm, BitVec.add_sub_cancel, BitVec.toNat_ofNat]
      omega
    exact congrArg smallestDisk.byte offset

theorem kernel_reads_image_first : ∃ bytes e out,
    Read .host smallestDisk (dataBlockAddr (mkfsSuper 32 32) 0) 4096 = some bytes ∧
      kernelRead ramdiskMemory ramdisk (dataBlockAddr (mkfsSuper 32 32) 0) (fun _ => 0) 4096 = (0, e, out) ∧
      ∀ k < 4096, out k = bytes k := by
  obtain ⟨bytes, host, reads⟩ := @kernel_reads_image _ _ _ _ _ _ _ (fun _ => 0) 0 (by decide) smallest_formatted
    rfl ramdisk_loaded (by decide)
  obtain ⟨e, out, read, same⟩ := reads.mpr (by decide)
  exact ⟨bytes, e, out, host, read, same⟩

/-- The kernel is refused the last block of the smallest image. -/
theorem kernel_misses_last_block : mkfs 32 32 ⟨fun _ => 0, zeros⟩ = .ok smallestDisk ∧
    Loaded ramdiskMemory ramdisk smallestDisk ∧
    (Read .host smallestDisk (dataBlockAddr (mkfsSuper 32 32) 31) 4096).isSome = true ∧
    (kernelRead ramdiskMemory ramdisk (dataBlockAddr (mkfsSuper 32 32) 31) (fun _ => 0) 4096).1 = -1 :=
  ⟨smallest_formatted, ramdisk_loaded, by decide +kernel, by decide +kernel⟩

end Icix
