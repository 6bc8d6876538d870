import Icix.Fs.Operations

/-! The image that mkfs writes, the state that ufs_init mounts from a disk, and
the calls made on that state as the actions of a run. -/
namespace Icix
open Bytes

/- mkfs is a host program: its ints have 32 bits and its offsets are signed. -/
def pwrite (d : Disk) (buf : Nat → Byte) (count : Nat) (offset : Int) : Option Disk :=
  if offset < 0 then none else d.write .host offset.toNat buf count

/-- One block for so many bits or bytes, and one more for a remainder. -/
def blocksFor (n perBlock : Int) : Int :=
  if n.tmod perBlock ≠ 0 then int32 (n.tdiv perBlock + 1) else n.tdiv perBlock

def mkfsSuper (numInodes numData : Int) : Super :=
  let inodeBitmapLen := blocksFor numInodes 32768
  let dataBitmapAddr := int32 (1 + inodeBitmapLen)
  let dataBitmapLen := blocksFor numData 32768
  let inodeRegionAddr := int32 (dataBitmapAddr + dataBitmapLen)
  let inodeRegionLen := blocksFor (int32 (numInodes * 128)) 4096
  { inodeBitmapAddr := 1
    inodeBitmapLen := BitVec.ofInt 32 inodeBitmapLen
    dataBitmapAddr := BitVec.ofInt 32 dataBitmapAddr
    dataBitmapLen := BitVec.ofInt 32 dataBitmapLen
    inodeRegionAddr := BitVec.ofInt 32 inodeRegionAddr
    inodeRegionLen := BitVec.ofInt 32 inodeRegionLen
    dataRegionAddr := BitVec.ofInt 32 (inodeRegionAddr + inodeRegionLen)
    dataRegionLen := BitVec.ofInt 32 numData
    numInodes := BitVec.ofInt 32 numInodes
    numData := BitVec.ofInt 32 numData }

def totalBlocks (s : Super) : Word :=
  1 + s.inodeBitmapLen + s.dataBitmapLen + s.inodeRegionLen + s.dataRegionLen

/-- The bitmap block mkfs writes twice: only its first entry is allocated. -/
def firstBitBlock : Nat → Byte := wordsBytes fun i => if i = 0 then 0x80000000 else 0

def rootInode (s : Super) : Inode where
  type := ufsDirectory
  size := 64
  direct a := if a = 0 then s.dataRegionAddr else -1

/- The bytes that mkfs's uninitialised inode_block and dir_block_t start with. -/
structure MkfsStack where
  itable : Nat → Byte
  parent : Stack

def zeroBlock (d : Disk) (i : Nat) : Option Disk := pwrite d (fun _ => 0) 4096 (int32 (i * 4096))

def mkfs (numInodes numData : Int) (stk : MkfsStack) : Except Fault Disk :=
  if numInodes < 32 then .error (.assertion "num_inodes >= 32")
  else if numData < 32 then .error (.assertion "num_data >= 32")
  else
    let s := mkfsSuper numInodes numData
    let zeroed := (pwrite { len := 0, byte := fun _ => 0 } s.bytes 40 0).bind fun d =>
      (List.range' 1 ((totalBlocks s).toInt.toNat - 1)).foldlM zeroBlock d
    match zeroed with
    | none => .error (.exit "write")
    | some d => do
      let parent ← dirBlock .host stk.parent 0 0
      let written :=
        (pwrite d firstBitBlock 4096 (s.inodeBitmapAddr * 4096).toInt).bind fun d =>
        (pwrite d firstBitBlock 4096 (s.dataBitmapAddr * 4096).toInt).bind fun d =>
        (pwrite d (blit stk.itable 0 128 (rootInode s).bytes) 4096 (s.inodeRegionAddr * 4096).toInt).bind fun d =>
        pwrite d parent 4096 (s.dataRegionAddr * 4096).toInt
      match written with
      | none => .error (.assertion "rc == UFS_BLOCK_SIZE")
      | some d => .ok d

/-- One seek and read of ufs_init. -/
def readAt (b : Build) (d : Disk) (addr : Word) (count : Nat) (lseekFail readFail : String) :
    Except Fault (Nat → Byte) :=
  match d.lseek b (addr * 4096).toInt with
  | none => .error (.exit lseekFail)
  | some cursor =>
    match d.read cursor count with
    | none => .error (.exit readFail)
    | some bytes => .ok bytes

/-- The superblock is read at the disk's cursor, which is 0 for the host's newly
opened file. The two dirty bitmaps keep what malloc returned. -/
def ufsInit (b : Build) (d : Disk) (cursor : Nat) (dirtyInodeBp dirtyDataBp : Bitmap) :
    Except Fault Ufs :=
  match d.read cursor 40 with
  | none => .error (.exit "ufs_init superblock read fail")
  | some bytes => do
    let s := Super.ofBytes bytes
    let inodeBp ← readAt b d s.inodeBitmapAddr (sizeT b (getBitmapSz s.numInodes.toInt * 4))
      "ufs_init inode bitmap lseek fail" "ufs_init inode bitmap read fail"
    let dataBp ← readAt b d s.dataBitmapAddr (sizeT b (getBitmapSz s.numData.toInt * 4))
      "ufs_init data bitmap lseek fail" "ufs_init data bitmap read fail"
    let inodes ← readAt b d s.inodeRegionAddr (sizeT b (128 * s.numInodes.toInt))
      "ufs_init itable lseek fail" "ufs_init inode table read fail"
    .ok { s := s
          inodeBp := wordAt inodeBp
          dataBp := wordAt dataBp
          inodes := fun i => Inode.ofBytes (view inodes (128 * i))
          dirtyInodeBp := dirtyInodeBp
          dirtyDataBp := dirtyDataBp
          disk := d }

/- The calls of a run, with the buffers and stack bytes they find. -/
inductive Call where
  | creat (pinum : Int) (type : Word) (name : CString) (stk : Stack)
  | write (inum : Int) (buf : Nat → Byte) (offset nbytes : Int)
  | read (inum : Int) (buffer : Nat → Byte) (offset nbytes : Int)
  | lookup (pinum : Int) (name : CString)
  | unlink (pinum : Int) (name : CString) (stk : Stack)

def Call.removes : Call → Bool
  | .unlink .. => true
  | _ => false

def call (b : Build) (u : Ufs) : Call → Except Fault Ufs
  | .creat pinum type name stk => return (← ufsCreat b u pinum type name stk).2
  | .write inum buf offset nbytes => return (← ufsWrite b u inum buf offset nbytes).2
  | .read inum buffer offset nbytes => do
    let _ ← ufsRead b u inum buffer offset nbytes
    return u
  | .lookup pinum name => do
    let _ ← ufsLookup b u pinum name
    return u
  | .unlink pinum name stk => return (← ufsUnlink b u pinum name stk).2

end Icix
