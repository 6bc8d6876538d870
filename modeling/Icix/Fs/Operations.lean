import Icix.Fs.State

/-! The calls of ufs.c and filesystem.c, one definition a function, with the two
builds' differences as branches on Build. Loops run on a count of what is left
of them. The state is returned, and a Fault ends the call. -/
namespace Icix
open Bytes

/- dir_ent_t: 28 bytes of name, then inum. -/
def entInum (m : Nat → Byte) : Word := word (view m 28)

/-- strcmp within the first lim bytes of both strings; none past them. -/
def strcmp : Nat → (Nat → Byte) → (Nat → Byte) → Option Int
  | 0, _, _ => none
  | lim + 1, s, t =>
    if s 0 ≠ 0 ∧ s 0 = t 0 then strcmp lim (view s 1) (view t 1)
    else some ((s 0).toNat - (t 0).toNat)

/-- strcpy into a 28-byte name at address a. The host's copies up to the NUL and
leaves the array when the string is longer; the kernel's own is a memcpy of
sizeof(src) + 1 bytes, where src is a 4-byte pointer. -/
def strcpy (b : Build) (m : Nat → Byte) (a : Nat) (src : CString) : Except Fault (Nat → Byte) :=
  match b with
  | .host =>
    if src.chars.length + 1 ≤ 28 then .ok (blit m a (src.chars.length + 1) src.mem)
    else .error .outOfBounds
  | .kernel => .ok (blit m a 5 src.mem)

/- The literals "." and ".."; rodata is what lies in memory after their NULs. -/
def dot (rodata : Nat → Byte) : CString where
  mem k := if k = 0 then 46 else if k = 1 then 0 else rodata k
  chars := [46]
  holds := ⟨rfl, by decide, rfl⟩

def dotdot (rodata : Nat → Byte) : CString where
  mem k := if k < 2 then 46 else if k = 2 then 0 else rodata k
  chars := [46, 46]
  holds := ⟨rfl, by decide, rfl, by decide, rfl⟩

def putWord (m : Nat → Byte) (a : Nat) (w : Word) : Nat → Byte := blit m a 4 (wordByte w)

/-- The loop that stores inum -1, four bytes 0xFF, in entries start, .., 127 of a
dir_block_t. -/
def clearEntries (m : Nat → Byte) (start : Nat) : Nat → Byte :=
  fun x => if start ≤ x / 32 ∧ x / 32 < 128 ∧ 28 ≤ x % 32 then 0xFF else m x

/-- inode.size / sizeof(dir_ent_t), in the build's size_t and then an int. -/
def dirEntCnt (b : Build) (size : Word) : Int := int32 (sizeT b size.toInt / 32 : Nat)

namespace Drive

variable {σ : Type} (disk : Drive σ)

/-- The entries of one block from the cursor on, left of them unread and cnt still to
compare: the inum found, or the count that remains. -/
def lookupBlock (name : CString) : Nat → Int → σ → Except Fault ((Int ⊕ Int) × σ)
  | 0, cnt, s => .ok (.inr cnt, s)
  | left + 1, cnt, s =>
    match disk.read s 32 with
    | none => .error (.exit "ufs_lookup dir_ent read fail")
    | some (ent, s) =>
      if entInum ent = -1 then .error (.assertion "dir_ent.inum != -1")
      else match strcmp 32 name.mem ent with
        | none => .error .outOfBounds
        | some r =>
          if r = 0 then .ok (.inl (entInum ent).toInt, s)
          else if cnt - 1 = 0 then .ok (.inr 0, s)
          else lookupBlock name left (cnt - 1) s

/-- The pointers a = 30 - left, .., 29. The address is an unsigned product, which
the host's off_t keeps non-negative. -/
def lookupBlocks (name : CString) (inode : Inode) : Nat → Int → σ → Except Fault (Int × σ)
  | 0, _, s => .ok (-1, s)
  | left + 1, cnt, s =>
    if cnt = 0 then .ok (-1, s)
    else match disk.lseek s (inode.ptr (29 - left) * 4096) with
      | none => .error (.exit "ufs_lookup lseek fail, probably corrupted inode table")
      | some s => do
        match ← disk.lookupBlock name 128 cnt s with
        | (.inl inum, s) => .ok (inum, s)
        | (.inr rest, s) => lookupBlocks name inode left rest s

def ufsLookup (b : Build) (nfs : Volume) (pinum : Int) (name : CString) (s : σ) : Except Fault (Int × σ) :=
  if pinum < 0 ∨ nfs.s.numInodes.toInt ≤ pinum then .ok (-2, s)
  else if getBitmap nfs.inodeBp pinum = false then .ok (-3, s)
  else if (nfs.inodes pinum.toNat).type ≠ ufsDirectory then .ok (-4, s)
  else
    let inode := nfs.inodes pinum.toNat
    if inode.size.toNat % 32 ≠ 0 then
      .error (.exit "ufs_lookup inode size not divisible by dir_ent_t size, probably corrupted")
    else disk.lookupBlocks name inode 30 (dirEntCnt b inode.size) s

/-- The loop of ufs_read over the pointers 30 - left, .., 29: the buffer after it. -/
def readLoop (inode : Inode) (nbytes : Nat) :
    Nat → Nat → Nat → (Nat → Byte) → σ → Except Fault ((Nat → Byte) × σ)
  | 0, _, _, buffer, s => .ok (buffer, s)
  | left + 1, cur, offset, buffer, s =>
    if nbytes ≤ cur then .ok (buffer, s)
    else
      let sz := min (nbytes - cur) (4096 - offset)
      match disk.Read s (inode.ptr (29 - left) * 4096 + BitVec.ofNat 32 offset) sz with
      | none => .error (.exit "ufs_read fail")
      | some (bytes, s) => readLoop inode nbytes left (cur + sz) 0 (blit buffer cur sz bytes) s

def ufsRead (nfs : Volume) (inum : Int) (buffer : Nat → Byte) (offset nbytes : Int) (s : σ) :
    Except Fault ((Int × (Nat → Byte)) × σ) :=
  if inum < 0 ∨ nfs.s.numInodes.toInt ≤ inum then .ok ((-1, buffer), s)
  else if getBitmap nfs.inodeBp inum = false then .ok ((-1, buffer), s)
  else
    let inode := nfs.inodes inum.toNat
    if offset < 0 ∨ nbytes ≤ 0 ∨ inode.size.toInt < int32 (offset + nbytes) then .ok ((-1, buffer), s)
    else if inode.type = ufsDirectory ∧ offset.toNat % 4096 % 32 ≠ 0 then .ok ((-1, buffer), s)
    else do
      let strt := offset.toNat / 4096
      let (buffer, s) ← disk.readLoop inode nbytes.toNat (30 - strt) 0 (offset.toNat % 4096) buffer s
      .ok ((0, buffer), s)

end Drive

/- On a byte array the cursor is forgotten: both calls seek before they read. -/
def lookupBlock (b : Build) (d : Disk) (name : CString) (left cursor : Nat) (cnt : Int) : Except Fault (Int ⊕ Int) :=
  ((d.drive b).lookupBlock name left cnt cursor).map Prod.fst

def lookupBlocks (b : Build) (d : Disk) (name : CString) (inode : Inode) (left : Nat) (cnt : Int) : Except Fault Int :=
  ((d.drive b).lookupBlocks name inode left cnt 0).map Prod.fst

def ufsLookup (b : Build) (u : Ufs) (pinum : Int) (name : CString) : Except Fault Int :=
  ((u.disk.drive b).ufsLookup b u.volume pinum name 0).map Prod.fst

def readLoop (b : Build) (d : Disk) (inode : Inode) (nbytes left cur offset : Nat) (buffer : Nat → Byte) :
    Except Fault (Nat → Byte) :=
  ((d.drive b).readLoop inode nbytes left cur offset buffer 0).map Prod.fst

def ufsRead (b : Build) (u : Ufs) (inum : Int) (buffer : Nat → Byte) (offset nbytes : Int) :
    Except Fault (Int × (Nat → Byte)) :=
  ((u.disk.drive b).ufsRead u.volume inum buffer offset nbytes 0).map Prod.fst

theorem lookupBlock_succ (b : Build) (d : Disk) (name : CString) (left cursor : Nat) (cnt : Int) :
    lookupBlock b d name (left + 1) cursor cnt =
      match d.read cursor 32 with
      | none => .error (.exit "ufs_lookup dir_ent read fail")
      | some ent =>
        if entInum ent = -1 then .error (.assertion "dir_ent.inum != -1")
        else match strcmp 32 name.mem ent with
          | none => .error .outOfBounds
          | some r =>
            if r = 0 then .ok (.inl (entInum ent).toInt)
            else if cnt - 1 = 0 then .ok (.inr 0)
            else lookupBlock b d name left (cursor + 32) (cnt - 1) := by
  unfold lookupBlock
  rw [Drive.lookupBlock, drive_read]
  cases d.read cursor 32 with
  | none => rfl
  | some ent =>
    simp only [Option.map_some]
    split
    · rfl
    · cases strcmp 32 name.mem ent with
      | none => rfl
      | some r =>
        dsimp only
        split
        · rfl
        · split <;> rfl

theorem lookupBlocks_cursor (b : Build) (d : Disk) (name : CString) (inode : Inode) (left : Nat) (cnt : Int)
    (cursor : Nat) :
    ((d.drive b).lookupBlocks name inode left cnt cursor).map Prod.fst = lookupBlocks b d name inode left cnt := by
  cases left with
  | zero => rfl
  | succ left =>
    unfold lookupBlocks
    rw [Drive.lookupBlocks, Drive.lookupBlocks]
    split
    · rfl
    · rfl

theorem lookupBlocks_succ (b : Build) (d : Disk) (name : CString) (inode : Inode) (left : Nat) (cnt : Int) :
    lookupBlocks b d name inode (left + 1) cnt =
      (if cnt = 0 then .ok (-1)
      else match d.lseek b (inode.ptr (29 - left) * 4096).toNat with
        | none => .error (.exit "ufs_lookup lseek fail, probably corrupted inode table")
        | some cursor => do
          match ← lookupBlock b d name 128 cursor cnt with
          | .inl inum => .ok inum
          | .inr rest => lookupBlocks b d name inode left rest) := by
  unfold lookupBlocks
  rw [Drive.lookupBlocks]
  split
  · rfl
  · rw [drive_lseek]
    cases d.lseek b (inode.ptr (29 - left) * 4096).toNat with
    | none => rfl
    | some cursor =>
      change Except.map Prod.fst (Except.bind _ _) = Except.bind (Except.map Prod.fst _) _
      cases (d.drive b).lookupBlock name 128 cnt cursor with
      | error fault => rfl
      | ok out =>
        obtain ⟨inum | rest, cursor⟩ := out
        · rfl
        · exact lookupBlocks_cursor b d name inode left rest cursor

theorem lookup_checks (b : Build) (u : Ufs) (pinum : Int) (name : CString) :
    ufsLookup b u pinum name =
      if pinum < 0 ∨ u.s.numInodes.toInt ≤ pinum then .ok (-2)
      else if getBitmap u.inodeBp pinum = false then .ok (-3)
      else if (u.inodes pinum.toNat).type ≠ ufsDirectory then .ok (-4)
      else if (u.inodes pinum.toNat).size.toNat % 32 ≠ 0 then
        .error (.exit "ufs_lookup inode size not divisible by dir_ent_t size, probably corrupted")
      else lookupBlocks b u.disk name (u.inodes pinum.toNat) 30 (dirEntCnt b (u.inodes pinum.toNat).size) := by
  unfold ufsLookup Drive.ufsLookup
  by_cases range : pinum < 0 ∨ u.s.numInodes.toInt ≤ pinum
  · rw [if_pos range, if_pos range]
    rfl
  rw [if_neg range, if_neg range]
  by_cases bit : getBitmap u.inodeBp pinum = false
  · rw [if_pos bit, if_pos bit]
    rfl
  rw [if_neg bit, if_neg bit]
  by_cases dir : (u.inodes pinum.toNat).type ≠ ufsDirectory
  · rw [if_pos dir, if_pos dir]
    rfl
  rw [if_neg dir, if_neg dir]
  dsimp only
  by_cases whole : (u.inodes pinum.toNat).size.toNat % 32 ≠ 0
  · rw [if_pos whole, if_pos whole]
    rfl
  · rw [if_neg whole, if_neg whole]
    rfl

theorem readLoop_cursor (b : Build) (d : Disk) (inode : Inode) (nbytes left cur offset : Nat) (buffer : Nat → Byte)
    (cursor : Nat) : ((d.drive b).readLoop inode nbytes left cur offset buffer cursor).map Prod.fst =
      readLoop b d inode nbytes left cur offset buffer := by
  cases left with
  | zero => rfl
  | succ left =>
    unfold readLoop
    rw [Drive.readLoop, Drive.readLoop]
    split <;> rfl

theorem readLoop_succ (b : Build) (d : Disk) (inode : Inode) (nbytes left cur offset : Nat) (buffer : Nat → Byte) :
    readLoop b d inode nbytes (left + 1) cur offset buffer =
      if nbytes ≤ cur then .ok buffer
      else
        let sz := min (nbytes - cur) (4096 - offset)
        match Read b d (inode.ptr (29 - left) * 4096 + BitVec.ofNat 32 offset) sz with
        | none => .error (.exit "ufs_read fail")
        | some bytes => readLoop b d inode nbytes left (cur + sz) 0 (blit buffer cur sz bytes) := by
  unfold readLoop
  rw [Drive.readLoop]
  split
  · rfl
  · dsimp only
    rw [drive_Read]
    cases Read b d (inode.ptr (29 - left) * 4096 + BitVec.ofNat 32 offset) (min (nbytes - cur) (4096 - offset)) with
    | none => rfl
    | some bytes => exact readLoop_cursor b d inode nbytes left _ 0 _ _

theorem read_checks (b : Build) (u : Ufs) (inum : Int) (buffer : Nat → Byte) (offset nbytes : Int) :
    ufsRead b u inum buffer offset nbytes =
      if inum < 0 ∨ u.s.numInodes.toInt ≤ inum then .ok (-1, buffer)
      else if getBitmap u.inodeBp inum = false then .ok (-1, buffer)
      else if offset < 0 ∨ nbytes ≤ 0 ∨ (u.inodes inum.toNat).size.toInt < int32 (offset + nbytes) then .ok (-1, buffer)
      else if (u.inodes inum.toNat).type = ufsDirectory ∧ offset.toNat % 4096 % 32 ≠ 0 then .ok (-1, buffer)
      else readLoop b u.disk (u.inodes inum.toNat) nbytes.toNat (30 - offset.toNat / 4096) 0 (offset.toNat % 4096)
        buffer >>= fun out => .ok (0, out) := by
  unfold ufsRead Drive.ufsRead readLoop
  by_cases range : inum < 0 ∨ u.s.numInodes.toInt ≤ inum
  · rw [if_pos range, if_pos range]
    rfl
  rw [if_neg range, if_neg range]
  by_cases bit : getBitmap u.inodeBp inum = false
  · rw [if_pos bit, if_pos bit]
    rfl
  rw [if_neg bit, if_neg bit]
  dsimp only
  by_cases bounds : offset < 0 ∨ nbytes ≤ 0 ∨ (u.inodes inum.toNat).size.toInt < int32 (offset + nbytes)
  · rw [if_pos bounds, if_pos bounds]
    rfl
  rw [if_neg bounds, if_neg bounds]
  by_cases aligned : (u.inodes inum.toNat).type = ufsDirectory ∧ offset.toNat % 4096 % 32 ≠ 0
  · rw [if_pos aligned, if_pos aligned]
    rfl
  rw [if_neg aligned, if_neg aligned]
  cases (u.disk.drive b).readLoop (u.inodes inum.toNat) nbytes.toNat (30 - offset.toNat / 4096) 0
    (offset.toNat % 4096) buffer 0 <;> rfl

/- commit_dirty_to_disk: one inode, then one data block, and the two loops over
them; none is its return of -1. -/
def commitInode (b : Build) (u : Ufs) (i : Nat) : Option Ufs :=
  if getBitmap u.dirtyInodeBp i then
    let word := u.s.inodeBitmapAddr * 4096 + BitVec.ofNat 32 (i / 32) * 4
    let record := u.s.inodeRegionAddr * 4096 + BitVec.ofNat 32 i * 128
    (Write b u.disk word (wordByte (u.inodeBp (i / 32))) 4).bind fun d =>
    (Write b d record (u.inodes i).bytes 128).map fun d =>
    { u with disk := d, dirtyInodeBp := resetBitmap u.dirtyInodeBp i }
  else some u

def commitData (b : Build) (u : Ufs) (i : Nat) : Option Ufs :=
  if getBitmap u.dirtyDataBp i then
    let word := u.s.dataBitmapAddr * 4096 + BitVec.ofNat 32 (i / 32) * 4
    (Write b u.disk word (wordByte (u.dataBp (i / 32))) 4).map fun d =>
    { u with disk := d, dirtyDataBp := resetBitmap u.dirtyDataBp i }
  else some u

def commitDirtyToDisk (b : Build) (u : Ufs) : Option Ufs :=
  ((List.range u.s.ni).foldlM (commitInode b) u).bind fun u =>
  (List.range u.s.nd).foldlM (commitData b) u

/-- A caller of commit_dirty_to_disk exits when it returns -1. -/
def commitOrExit (b : Build) (u : Ufs) (message : String) : Except Fault Ufs :=
  match commitDirtyToDisk b u with
  | none => .error (.exit message)
  | some u => .ok u

/- The bytes that ufs_creat's and ufs_unlink's uninitialised locals start with,
and those after the string literals. -/
structure Stack where
  newDir : Nat → Byte
  newBlock : Nat → Byte
  dent : Nat → Byte
  rodata : Nat → Byte

/-- How ufs_creat ended: return -1, or after its commit (return 0 in the kernel;
the host's copy has no return statement there). -/
inductive Creat where
  | failed | committed
  deriving DecidableEq, Repr

def emptyPosInode (u : Ufs) : Option Nat :=
  (List.range u.s.ni).find? fun i => !getBitmap u.inodeBp i

/-- The first two clear bits of the data bitmap, in one pass. -/
def emptyPosData (u : Ufs) : Option Nat × Option Nat :=
  (List.range u.s.nd).foldl (fun found (i : Nat) =>
    if getBitmap u.dataBp i then found
    else match found with
      | (none, second) => (some i, second)
      | (some first, none) => (some first, some i)
      | full => full) (none, none)

def firstUnused (block : Nat → Byte) : Option Nat :=
  (List.range 128).find? fun j => entInum (view block (32 * j)) = -1

def isPinodeFull (b : Build) (d : Disk) (inode : Inode) : Nat → Except Fault Bool
  | 0 => .ok true
  | left + 1 =>
    let p := inode.ptr (29 - left)
    if p = -1 then isPinodeFull b d inode left
    else match Read b d (p * 4096) 4096 with
      | none => .error (.exit "ufs_creat read fail")
      | some block =>
        match firstUnused block with
        | some _ => .ok false
        | none => isPinodeFull b d inode left

/- The inode is marked before the remaining checks of ufs_creat. -/
def claimInode (u : Ufs) (i : Nat) (type : Word) : Ufs :=
  { u with
    inodeBp := setBitmap u.inodeBp i
    dirtyInodeBp := setBitmap u.dirtyInodeBp i
    inodes := Function.update u.inodes i { u.inodes i with type := type, direct := fun _ => -1 } }

def markData (u : Ufs) (k : Nat) : Ufs :=
  { u with
    dataBp := setBitmap u.dataBp k
    dirtyDataBp := setBitmap u.dirtyDataBp k }

@[simp] theorem markData_disk (u : Ufs) (k : Nat) : (markData u k).disk = u.disk := rfl

/- The block address of the data bitmap's bit k. -/
def Ufs.newBlock (u : Ufs) (k : Nat) : Word := BitVec.ofNat 32 k + u.s.dataRegionAddr

def markDirty (u : Ufs) (i : Nat) : Ufs :=
  { u with dirtyInodeBp := setBitmap u.dirtyInodeBp i }

/-- The block of a new directory: ".", ".." and 126 unused entries. -/
def dirBlock (b : Build) (stk : Stack) (inum pinum : Nat) : Except Fault (Nat → Byte) := do
  let m ← strcpy b stk.newDir 0 (dot stk.rodata)
  let m := putWord m 28 (BitVec.ofNat 32 inum)
  let m ← strcpy b m 32 (dotdot stk.rodata)
  let m := putWord m 60 (BitVec.ofNat 32 pinum)
  .ok (clearEntries m 2)

def makeDirectory (b : Build) (u : Ufs) (pinum inum k : Nat) (stk : Stack) : Except Fault Ufs := do
  let block := u.newBlock k
  let inode := { u.inodes inum with size := 64 }
  let u := markData (u.setInode inum (inode.setPtr 0 block)) k
  let data ← dirBlock b stk inum pinum
  match Write b u.disk (block * 4096) data 4096 with
  | none => .error (.exit "ufs_creat write fail")
  | some d => .ok { u with disk := d }

/-- A full parent's next block: one used entry and 127 unused ones. -/
def entryBlock (b : Build) (stk : Stack) (inum : Nat) (name : CString) : Except Fault (Nat → Byte) := do
  let m := putWord stk.newBlock 28 (BitVec.ofNat 32 inum)
  let m ← strcpy b m 0 name
  .ok (clearEntries m 1)

def firstFreePtr (inode : Inode) : Option Nat :=
  (List.range 30).find? fun a => inode.ptr a = -1

def linkBlock (u : Ufs) (pinum : Nat) (block : Word) : Ufs :=
  match firstFreePtr (u.inodes pinum) with
  | none => u
  | some a => u.setInode pinum ((u.inodes pinum).setPtr a block)

def appendBlock (b : Build) (u : Ufs) (pinum inum k : Nat) (name : CString) (stk : Stack) :
    Except Fault Ufs := do
  let block := u.newBlock k
  let data ← entryBlock b stk inum name
  match Write b u.disk (block * 4096) data 4096 with
  | none => .error (.exit "ufs_creat write fail")
  | some d => .ok (linkBlock (markData { u with disk := d } k) pinum block)

def dirEntry (b : Build) (stk : Stack) (inum : Nat) (name : CString) : Except Fault (Nat → Byte) := do
  let m ← strcpy b stk.dent 0 name
  .ok (putWord m 28 (BitVec.ofNat 32 inum))

/-- The first block with an unused entry takes the new entry. -/
def placeEntry (b : Build) (u : Ufs) (pinum inum : Nat) (name : CString) (stk : Stack) :
    Nat → Except Fault Ufs
  | 0 => .ok u
  | left + 1 =>
    let p := (u.inodes pinum).ptr (29 - left)
    match Read b u.disk (p * 4096) 4096 with
    | none => .error (.exit "ufs_creat read fail")
    | some block =>
      match firstUnused block with
      | none => placeEntry b u pinum inum name stk left
      | some j => do
        let dent ← dirEntry b stk inum name
        match Write b u.disk (p * 4096 + BitVec.ofNat 32 j * 32) dent 32 with
        | none => .error (.exit "ufs_creat write fail")
        | some d => .ok { u with disk := d }

/-- The end of ufs_creat once the parent has its entry. -/
def finishCreat (b : Build) (u : Ufs) (pinum : Nat) : Except Fault (Creat × Ufs) := do
  let parent := u.inodes pinum
  let u := u.setInode pinum { parent with size := parent.size + 32 }
  let u ← commitOrExit b u "ufs_creat couldn't commit dirty to disk"
  .ok (.committed, u)

def updateParent (b : Build) (u : Ufs) (pinum inum : Nat) (emptyPosData : Option Nat)
    (full : Bool) (name : CString) (stk : Stack) : Except Fault (Creat × Ufs) :=
  let u := markDirty u pinum
  if full then
    match emptyPosData with
    | none => .ok (.failed, u)
    | some k =>
      if (u.inodes pinum).size = 122880 then .ok (.failed, u)
      else do
        let u ← appendBlock b u pinum inum k name stk
        finishCreat b u pinum
  else do
    let u ← placeEntry b u pinum inum name stk 30
    finishCreat b u pinum

/-- ufs_creat from the marking of its inode on. -/
def creatAt (b : Build) (u : Ufs) (pinum inum : Nat) (data : Option Nat × Option Nat)
    (type : Word) (name : CString) (stk : Stack) : Except Fault (Creat × Ufs) :=
  let u := claimInode u inum type
  if (u.inodes pinum).size = 122880 then .ok (.failed, u)
  else do
    let full ← isPinodeFull b u.disk (u.inodes pinum) 30
    if type = ufsDirectory then
      match data.1 with
      | none => .ok (.failed, u)
      | some k =>
        if full = true ∧ data.2 = none then .ok (.failed, u)
        else do
          let u ← makeDirectory b u pinum inum k stk
          updateParent b u pinum inum data.2 full name stk
    else
      updateParent b (u.setInode inum { u.inodes inum with size := 0 }) pinum inum data.1 full name stk

def ufsCreat (b : Build) (u : Ufs) (pinum : Int) (type : Word) (name : CString) (stk : Stack) :
    Except Fault (Creat × Ufs) :=
  if pinum < 0 ∨ u.s.numInodes.toInt ≤ pinum then .ok (.failed, u)
  else if getBitmap u.inodeBp pinum = false then .ok (.failed, u)
  else if (u.inodes pinum.toNat).type ≠ ufsDirectory then .ok (.failed, u)
  else if 27 < int32 name.chars.length then .ok (.failed, u)
  else do
    let found ← ufsLookup b u pinum name
    if found ≠ -1 then .ok (.failed, u)
    else match emptyPosInode u with
      | none => .ok (.failed, u)
      | some inum => creatAt b u pinum.toNat inum (emptyPosData u) type name stk

def firstClearData (u : Ufs) : Option Nat :=
  (List.range u.s.nd).find? fun j => !getBitmap u.dataBp j

/-- The pointer at slot a, after a block has been allocated for it if it had none. -/
def ensureBlock (u : Ufs) (inum a : Nat) : Option Ufs :=
  if (u.inodes inum).ptr a = -1 then
    (firstClearData u).map fun k =>
      (markData u k).setInode inum ((u.inodes inum).setPtr a (u.newBlock k))
  else some u

/-- The loop of ufs_write over the pointers 30 - left, .., 29; true when it ends
and false for its return of -1. -/
def writeLoop (b : Build) (inum : Nat) (buf : Nat → Byte) (nbytes : Nat) :
    Nat → Nat → Nat → Ufs → Except Fault (Bool × Ufs)
  | 0, _, _, u => .ok (true, u)
  | left + 1, cur, offset, u =>
    if nbytes ≤ cur then .ok (true, u)
    else match ensureBlock u inum (29 - left) with
      | none => .ok (false, u)
      | some u =>
        let sz := min (nbytes - cur) (4096 - offset)
        let inode := u.inodes inum
        match Write b u.disk (inode.ptr (29 - left) * 4096 + BitVec.ofNat 32 offset) (view buf cur) sz with
        | none => .error (.exit "ufs_write fail")
        | some d =>
          let u := { u with disk := d }
          writeLoop b inum buf nbytes left (cur + sz) 0
            (u.setInode inum { inode with size := inode.size + BitVec.ofNat 32 sz })

def ufsWrite (b : Build) (u : Ufs) (inum : Int) (buf : Nat → Byte) (offset nbytes : Int) :
    Except Fault (Int × Ufs) :=
  if inum < 0 ∨ u.s.numInodes.toInt ≤ inum then .ok (-1, u)
  else if getBitmap u.inodeBp inum = false then .ok (-1, u)
  else
    let inode := u.inodes inum.toNat
    if 4096 < nbytes ∨ inode.size.toInt < offset ∨ inode.type ≠ ufsRegularFile ∨ offset < 0 ∨ nbytes ≤ 0
    then .ok (-1, u)
    else do
      let strt := offset.toNat / 4096
      let (done, u) ← writeLoop b inum.toNat buf nbytes.toNat (30 - strt) 0 (offset.toNat % 4096)
        (markDirty u inum.toNat)
      if done = false then .ok (-1, u)
      else do
        let u ← commitOrExit b u "ufs_write commit dirty to disk fail"
        .ok (0, u)

/-- The data bitmap's bit at the address a pointer holds is cleared. -/
def releasePtr (u : Ufs) (p : Word) : Except Fault Ufs :=
  if insideBitmap u.dataBpSz p.toInt then
    .ok { u with
      dataBp := resetBitmap u.dataBp p.toInt
      dirtyDataBp := setBitmap u.dirtyDataBp p.toInt }
  else .error .outOfBounds

def releasePtrs (inode : Inode) : Nat → Ufs → Except Fault Ufs
  | 0, u => .ok u
  | left + 1, u =>
    if inode.ptr (29 - left) = -1 then releasePtrs inode left u
    else do
      let u ← releasePtr u (inode.ptr (29 - left))
      releasePtrs inode left u

/-- The used entries of a block and the last of them with the name. -/
def scanBlock (block : Nat → Byte) (name : CString) : Nat → Option Nat × Nat → Except Fault (Option Nat × Nat)
  | 0, found => .ok found
  | left + 1, (entryIdx, cnt) =>
    let j := 127 - left
    let ent := view block (32 * j)
    if entInum ent = -1 then scanBlock block name left (entryIdx, cnt)
    else match strcmp (4096 - 32 * j) ent name.mem with
      | none => .error .outOfBounds
      | some r => scanBlock block name left (if r = 0 then some j else entryIdx, cnt + 1)

def dropEntry (b : Build) (u : Ufs) (pinum : Nat) (name : CString) (stk : Stack) :
    Nat → Except Fault Ufs
  | 0 => .ok u
  | left + 1 =>
    let a := 29 - left
    let p := (u.inodes pinum).ptr a
    if p = -1 then dropEntry b u pinum name stk left
    else match Read b u.disk (p * 4096) 4096 with
      | none => .error (.exit "ufs_unlink pinode data block read fail")
      | some block => do
        match ← scanBlock block name 128 (none, 0) with
        | (none, _) => dropEntry b u pinum name stk left
        | (some j, cnt) =>
          if cnt = 1 then do
            let u ← releasePtr u p
            .ok (u.setInode pinum ((u.inodes pinum).setPtr a (-1)))
          else
            let dentry := putWord stk.dent 28 (-1)
            match Write b u.disk (p * 4096 + BitVec.ofNat 32 j * 32) dentry 32 with
            | none => .error (.exit "ufs_unlink write fail")
            | some d => .ok { u with disk := d }

/-- ufs_unlink from the entry's inode on. -/
def unlinkAt (b : Build) (u : Ufs) (pinum : Nat) (inum : Int) (name : CString) (stk : Stack) :
    Except Fault (Int × Ufs) :=
  if inum < 0 ∨ u.s.numInodes.toInt ≤ inum then .error .outOfBounds
  else
    let inode := u.inodes inum.toNat
    if inode.type = ufsDirectory ∧ inode.size ≠ 64 then .ok (-1, u)
    else do
      let u := { u with
        inodeBp := resetBitmap u.inodeBp inum
        dirtyInodeBp := setBitmap (setBitmap u.dirtyInodeBp inum) pinum }
      let u ← releasePtrs inode 30 u
      let parent := u.inodes pinum
      let u := u.setInode pinum { parent with size := parent.size - 32 }
      let u ← dropEntry b u pinum name stk 30
      let u ← commitOrExit b u "ufs_unlink commit dirty to disk fail"
      .ok (0, u)

def ufsUnlink (b : Build) (u : Ufs) (pinum : Int) (name : CString) (stk : Stack) :
    Except Fault (Int × Ufs) :=
  if pinum < 0 ∨ u.s.numInodes.toInt ≤ pinum then .ok (-1, u)
  else if getBitmap u.inodeBp pinum = false then .ok (-1, u)
  else if strcmp 2 name.mem (dot stk.rodata).mem = some 0 then .ok (-1, u)
  else if strcmp 3 name.mem (dotdot stk.rodata).mem = some 0 then .ok (-1, u)
  else do
    let inum ← ufsLookup b u pinum name
    if inum = -1 then .ok (-1, u)
    else unlinkAt b u pinum.toNat inum name stk

end Icix
