import Icix.Fs.Remount
import Icix.Fs.Persist
import Icix.Fs.Release
import Icix.Mm.PageFault

/-! The kernel on the RAM disk: ufs_init with its calls of malloc, and ufs_lookup and ufs_read of
filesystem.c over the driver, with its cursor, against the byte array that the host tool has written. -/
namespace Icix
open Bytes Runs Lifting

/- The driver as ufs_lookup and ufs_read call it; junk is what their buffers hold before. -/
def Ramdisk.drive (memory : Word → Byte) (junk : Nat → Byte) : Drive Initrd where
  lseek d offset :=
    let (rc, d) := initrdLseek d offset
    if rc = -1 then none else some d
  read d count :=
    let (rc, d, bytes) := initrdRead memory d junk (BitVec.ofNat 32 count)
    if rc ≠ BitVec.ofNat 32 count then none else some (bytes, d)
  Read d addr count :=
    let (rc, d, bytes) := kernelRead memory d addr junk (BitVec.ofNat 32 count)
    if rc = -1 then none else some (bytes, d)

/-- What can be asked of a mounted disk that cannot be written. -/
inductive Query where
  | lookup (pinum : Int) (name : CString)
  | read (inum : Int) (buffer : Nat → Byte) (offset nbytes : Int)

def Query.call : Query → Call
  | .lookup pinum name => .lookup pinum name
  | .read inum buffer offset nbytes => .read inum buffer offset nbytes

def ramdiskAnswer (memory : Word → Byte) (junk : Nat → Byte) (v : Volume) (d : Initrd) :
    Query → Except Fault (Answer × Initrd)
  | .lookup pinum name => ((Ramdisk.drive memory junk).ufsLookup .kernel v pinum name d).map fun out => (.code out.1, out.2)
  | .read inum buffer offset nbytes =>
    ((Ramdisk.drive memory junk).ufsRead v inum buffer offset nbytes d).map fun out => (.bytes out.1.1 out.1.2, out.2)

/-- Up to left entries are compared, and no count is used up before the others. -/
def SameCount (left : Nat) (m n : Int) : Prop := m = n ∨ ∀ k : Nat, k ≤ left → m ≠ k ∧ n ≠ k

theorem SameCount.zero {left : Nat} {m n : Int} (same : SameCount left m n) : m = 0 ↔ n = 0 := by
  rcases same with rfl | apart
  · exact Iff.rfl
  · have none := apart 0 (Nat.zero_le left)
    exact iff_of_false none.1 none.2

theorem SameCount.pred {left : Nat} {m n : Int} (same : SameCount (left + 1) m n) : SameCount left (m - 1) (n - 1) := by
  rcases same with rfl | apart
  · exact .inl rfl
  · refine .inr fun k le => ?_
    have next := apart (k + 1) (Nat.succ_le_succ le)
    omega

theorem strcmp_congr {lim : Nat} {s t t' : Nat → Byte} (same : ∀ k < lim, t k = t' k) : strcmp lim s t = strcmp lim s t' := by
  induction lim generalizing s t t' with
  | zero => rfl
  | succ lim ih =>
    have rest : strcmp lim (view s 1) (view t 1) = strcmp lim (view s 1) (view t' 1) :=
      ih fun k hk => same (1 + k) (by omega)
    unfold strcmp
    rw [same 0 (Nat.succ_pos lim), rest]

/-- The results of one block of ufs_lookup, with later entries left to compare. -/
inductive SameFind (left : Nat) : Int ⊕ Int → Int ⊕ Int → Prop
  | found (inum : Int) : SameFind left (.inl inum) (.inl inum)
  | rest {m n : Int} (same : SameCount left m n) : SameFind left (.inr m) (.inr n)

section Loaded

variable {memory : Word → Byte} {d : Initrd} {file : Disk} (loaded : Loaded memory d file)
include loaded

theorem Loaded.moved (cursor : Word) : Loaded memory { d with cursor := cursor } file := ⟨loaded.endAddr, loaded.byte⟩

/-- A read before the end of the image advances the cursor. -/
theorem Loaded.read (buf : Nat → Byte) (size : Word) (inside : d.cursor.toNat + size.toNat < file.len) :
    ∃ out, initrdRead memory d buf size = (size, { d with cursor := d.cursor + size }, out) ∧
      ∀ k < size.toNat, out k = file.byte (d.cursor.toNat + k) := by
  have stop := loaded.endAddr
  have high := d.endAddr.isLt
  refine ⟨_, initrdRead_ok (by omega), fun k hk => ?_⟩
  rw [if_pos hk, ← loaded.byte _ (by omega)]
  congr 1
  apply BitVec.eq_of_toNat_eq
  rw [source_toNat (by omega), BitVec.toNat_add, BitVec.toNat_ofNat]
  omega

theorem Loaded.lseek {offset : Word} (inside : offset.toNat ≤ file.len) :
    initrdLseek d offset = (0, { d with cursor := offset }) := by
  have stop := loaded.endAddr
  exact initrdLseek_ok (by omega)

theorem Loaded.drive_read (junk : Nat → Byte) {count : Nat} (inside : d.cursor.toNat + count < file.len) :
    ∃ out, (Ramdisk.drive memory junk).read d count = some (out, { d with cursor := d.cursor + BitVec.ofNat 32 count }) ∧
      ∀ k < count, out k = file.byte (d.cursor.toNat + k) := by
  have stop := loaded.endAddr
  have high := d.endAddr.isLt
  have size : (BitVec.ofNat 32 count).toNat = count := by
    rw [BitVec.toNat_ofNat]
    omega
  obtain ⟨out, read, bytes⟩ := loaded.read junk (BitVec.ofNat 32 count) (by omega)
  rw [size] at bytes
  refine ⟨out, ?_, bytes⟩
  simp only [Ramdisk.drive, read, ne_eq, not_true, if_false]

theorem Loaded.drive_lseek (junk : Nat → Byte) {offset : Word} (inside : offset.toNat ≤ file.len) :
    (Ramdisk.drive memory junk).lseek d offset = some { d with cursor := offset } := by
  have codes : (0 : Word) ≠ -1 := by decide
  simp only [Ramdisk.drive, loaded.lseek inside, codes, if_false]

/-- A block before the last bytes of the image is searched as the host searches it. -/
theorem Loaded.lookupBlock (junk : Nat → Byte) (name : CString) (more : Nat) {left cursor : Nat} {m n : Int}
    (here : d.cursor.toNat = cursor) (inside : cursor + 32 * left < file.len) (same : SameCount (left + more) m n) :
    Follows (fun r s => SameFind more r s.1 ∧ Loaded memory s.2 file) (Icix.lookupBlock .host file name left cursor m)
      ((Ramdisk.drive memory junk).lookupBlock name left n d) := by
  induction left generalizing d cursor m n with
  | zero => exact .ok ⟨.rest (Nat.zero_add more ▸ same), loaded⟩
  | succ left ih =>
    obtain ⟨ent, read, bytes⟩ := loaded.drive_read junk (show d.cursor.toNat + 32 < file.len by omega)
    have host : file.read cursor 32 = some (view file.byte cursor) := if_pos (by omega)
    have entry : ∀ k < 32, view file.byte cursor k = ent k := fun k hk => (bytes k hk).symm ▸ here ▸ rfl
    rw [lookupBlock_succ, Drive.lookupBlock]
    simp only [host, read]
    rw [entInum_congr entry, strcmp_congr entry]
    refine Follows.ite (fun _ => .error _) (fun _ => ?_)
    cases strcmp 32 name.mem ent with
    | none => exact .error _
    | some r =>
      refine Follows.ite (fun _ => .ok ⟨.found _, loaded.moved _⟩) (fun _ => ?_)
      have next : SameCount (left + more) (m - 1) (n - 1) := SameCount.pred (by rwa [Nat.add_right_comm] at same)
      by_cases last : m - 1 = 0
      · rw [if_pos last, if_pos (next.zero.mp last)]
        exact .ok ⟨.rest (.inl rfl), loaded.moved _⟩
      · rw [if_neg last, if_neg (mt next.zero.mpr last)]
        refine ih (loaded.moved _) ?_ (by omega) next
        change (d.cursor + BitVec.ofNat 32 32).toNat = cursor + 32
        rw [BitVec.toNat_add, BitVec.toNat_ofNat]
        have stop := loaded.endAddr
        have high := d.endAddr.isLt
        omega

theorem Loaded.drive_Read (junk : Nat → Byte) (addr : Word) {count : Nat} (inside : addr.toNat + count < file.len) :
    ∃ e out, (Ramdisk.drive memory junk).Read d addr count = some (out, e) ∧ Loaded memory e file ∧
      ∀ k < count, out k = file.byte (addr.toNat + k) := by
  have stop := loaded.endAddr
  have high := d.endAddr.isLt
  have size : (BitVec.ofNat 32 count).toNat = count := by
    rw [BitVec.toNat_ofNat]
    omega
  obtain ⟨out, read, bytes⟩ := (loaded.moved addr).read junk (BitVec.ofNat 32 count) (by dsimp only; omega)
  rw [size] at bytes
  have codes : (0 : Word) ≠ -1 := by decide
  have done : (0 : Int) ≠ -1 := by decide
  refine ⟨_, out, ?_, (loaded.moved addr).moved (addr + BitVec.ofNat 32 count), bytes⟩
  simp only [Ramdisk.drive, kernelRead, loaded.lseek (by omega : addr.toNat ≤ file.len), codes, if_false, read, ne_eq,
    not_true, done]

end Loaded

/-- The blocks of an inode end before the disk does. -/
def Inode.Before (n : Inode) (file : Disk) : Prop := ∀ a, n.ptr a ≠ -1 → 4096 * (n.ptr a).toNat + 4096 < file.len

section Inode

variable {memory : Word → Byte} {d : Initrd} {file : Disk} {inode : Inode} (loaded : Loaded memory d file)
  (small : file.len ≤ Build.host.limit) (before : inode.Before file)
include loaded small before

theorem Loaded.lookupBlocks (junk : Nat → Byte) (name : CString) (left : Nat) {m n : Int}
    (same : SameCount (128 * left) m n) :
    Follows (fun r s => r = s.1 ∧ Loaded memory s.2 file) (Icix.lookupBlocks .host file name inode left m)
      ((Ramdisk.drive memory junk).lookupBlocks name inode left n d) := by
  induction left generalizing d m n with
  | zero => exact .ok ⟨rfl, loaded⟩
  | succ left ih =>
    rw [lookupBlocks_succ, Drive.lookupBlocks]
    by_cases done : m = 0
    · rw [if_pos done, if_pos (same.zero.mp done)]
      exact .ok ⟨rfl, loaded⟩
    · rw [if_neg done, if_neg (mt same.zero.mpr done)]
      have seek : file.lseek .host ((inode.ptr (29 - left) * 4096).toNat : Int) =
          some (inode.ptr (29 - left) * 4096).toNat := by
        simp only [Disk.lseek, Int.toNat_natCast]
        rw [if_neg (by omega)]
      have limit : Build.host.limit < 4294963200 := by decide
      simp only [seek]
      by_cases empty : inode.ptr (29 - left) = -1
      · have addr : (inode.ptr (29 - left) * 4096).toNat = 4294963200 := by
          rw [empty]
          decide
        have read : file.read 4294963200 32 = none := if_neg (by omega)
        have fails : Icix.lookupBlock .host file name 128 4294963200 m = .error (.exit "ufs_lookup dir_ent read fail") := by
          rw [lookupBlock_succ, read]
        rw [addr, fails]
        exact .error _
      · have within := before _ empty
        have addr : (inode.ptr (29 - left) * 4096).toNat = 4096 * (inode.ptr (29 - left)).toNat :=
          block_addr_zero (by omega)
        simp only [loaded.drive_lseek junk (by omega : (inode.ptr (29 - left) * 4096).toNat ≤ file.len)]
        refine ((loaded.moved _).lookupBlock junk name (128 * left) rfl (by dsimp only; omega)
          (by rwa [Nat.mul_succ, Nat.add_comm] at same)).bind ?_
        rintro r ⟨r', e⟩ ⟨found, next⟩
        cases found with
        | found inum => exact .ok ⟨rfl, next⟩
        | rest rest => exact ih next rest

theorem Loaded.readLoop (junk : Nat → Byte) (nbytes left cur : Nat) {off : Nat} (lt : off < 4096) (buffer : Nat → Byte) :
    Follows (fun r s => r = s.1 ∧ Loaded memory s.2 file) (Icix.readLoop .host file inode nbytes left cur off buffer)
      ((Ramdisk.drive memory junk).readLoop inode nbytes left cur off buffer d) := by
  induction left generalizing d cur off buffer with
  | zero => exact .ok ⟨rfl, loaded⟩
  | succ left ih =>
    rw [readLoop_succ, Drive.readLoop]
    refine Follows.ite (fun _ => .ok ⟨rfl, loaded⟩) (fun more => ?_)
    have limit : Build.host.limit < 4294963200 := by decide
    have positive : 0 < min (nbytes - cur) (4096 - off) := by omega
    dsimp only
    by_cases empty : inode.ptr (29 - left) = -1
    · rw [empty, Read_minus_one small positive lt]
      exact .error _
    · have within := before _ empty
      have addr : (inode.ptr (29 - left) * 4096 + BitVec.ofNat 32 off).toNat =
          4096 * (inode.ptr (29 - left)).toNat + off := block_addr (by omega)
      have host := Read_ok (b := .host) (d := file) (inode.ptr (29 - left) * 4096 + BitVec.ofNat 32 off) positive
        (by omega) small
      obtain ⟨e, out, read, next, bytes⟩ := loaded.drive_Read junk (inode.ptr (29 - left) * 4096 + BitVec.ofNat 32 off)
        (show _ + min (nbytes - cur) (4096 - off) < file.len by omega)
      simp only [host, read]
      have same : blit buffer cur (min (nbytes - cur) (4096 - off)) (view file.byte (inode.ptr (29 - left) * 4096 +
          BitVec.ofNat 32 off).toNat) = blit buffer cur (min (nbytes - cur) (4096 - off)) out :=
        blit_congr buffer cur fun k hk => (bytes k hk).symm
      rw [same]
      exact ih next _ (Nat.succ_pos 4095) _

end Inode

/-- Both builds count the same entries, or more than there are slots. -/
theorem dirEntCnt_same (size : Word) : SameCount (128 * 30) (dirEntCnt .host size) (dirEntCnt .kernel size) := by
  have bound := size.isLt
  unfold dirEntCnt
  by_cases nonneg : size.toNat < 2147483648
  · have value : size.toInt = (size.toNat : Int) := by rw [BitVec.toInt_eq_toNat_cond, if_pos (by omega)]
    rw [value, sizeT_ok _ bound, sizeT_ok _ bound]
    exact .inl rfl
  · have value : size.toInt = (size.toNat : Int) - 4294967296 := by
      rw [BitVec.toInt_eq_toNat_cond, if_neg (by omega)]
      rfl
    refine .inr fun k le => ?_
    simp only [sizeT, value, int32, Int.bmod_def]
    constructor <;> split <;> omega

/-- The arrays that the kernel has read are those of the state, where it looks. -/
structure Volume.Of (v : Volume) (u : Ufs) : Prop where
  s : v.s = u.s
  inodeBit : ∀ i : Nat, i < u.s.ni → getBitmap v.inodeBp i = getBitmap u.inodeBp i
  inode : ∀ i < u.s.ni, v.inodes i = u.inodes i

/-- The last data block is no file's. -/
def Ufs.SparesLast (u : Ufs) : Prop := ∀ i, u.allocated i → ∀ a, (u.inodes i).ptr a ≠ -1 →
  ((u.inodes i).ptr a).toNat + 1 < u.s.dr + u.s.nd

/-- It is no file's while its bit is clear. -/
theorem Ufs.Owned.sparesLast {u : Ufs} (owned : u.Owned) (clear : getBitmap u.dataBp ((u.s.nd - 1 : Nat) : Int) = false) :
    u.SparesLast := by
  intro i live a real
  obtain ⟨k, hk, same, used⟩ := owned.covered (i, a) _ (ref_eq_some.mpr ⟨live, real, rfl⟩)
  have other : k ≠ u.s.nd - 1 := by
    rintro rfl
    rw [clear] at used
    cases used
  omega

section Answers

variable {memory : Word → Byte} {d : Initrd} {u : Ufs} {v : Volume} (loaded : Loaded memory d u.disk)
  (sound : u.Sound .host) (spares : u.SparesLast) (of : v.Of u)
include loaded sound spares of

omit loaded of in
theorem Ufs.SparesLast.before {i : Nat} (live : u.allocated i) : (u.inodes i).Before u.disk := by
  intro a real
  have last := spares i live a real
  have region := sound.data_le
  omega

omit loaded sound spares in
theorem Volume.Of.bit {i : Int} (low : 0 ≤ i) (high : i < u.s.numInodes.toInt) :
    getBitmap v.inodeBp i = getBitmap u.inodeBp i := by
  obtain ⟨inside, index⟩ := ni_of_range low high
  rw [← index]
  exact of.inodeBit _ inside

theorem Loaded.lookup (junk : Nat → Byte) (pinum : Int) (name : CString) :
    Follows (fun r s => r = s.1 ∧ Loaded memory s.2 u.disk) (ufsLookup .host u pinum name)
      ((Ramdisk.drive memory junk).ufsLookup .kernel v pinum name d) := by
  rw [lookup_checks, Drive.ufsLookup, of.s]
  refine Follows.ite (fun _ => .ok ⟨rfl, loaded⟩) (fun range => ?_)
  obtain ⟨inside, index⟩ := ni_of_range (s := u.s) (i := pinum) (by omega) (by omega)
  rw [of.bit (by omega) (by omega), of.inode _ inside]
  refine Follows.ite (fun _ => .ok ⟨rfl, loaded⟩) (fun bit => Follows.ite (fun _ => .ok ⟨rfl, loaded⟩) (fun _ => ?_))
  have live : u.allocated pinum.toNat := allocated_of_bit (by omega) (by omega) (by simpa using bit)
  refine Follows.ite (fun _ => .error _) (fun whole => ?_)
  exact loaded.lookupBlocks sound.disk_le (spares.before sound live) junk name 30 (dirEntCnt_same _)

theorem Loaded.ufsRead (junk : Nat → Byte) (inum : Int) (buffer : Nat → Byte) (offset nbytes : Int) :
    Follows (fun r s => r = s.1 ∧ Loaded memory s.2 u.disk) (ufsRead .host u inum buffer offset nbytes)
      ((Ramdisk.drive memory junk).ufsRead v inum buffer offset nbytes d) := by
  rw [read_checks, Drive.ufsRead, of.s]
  refine Follows.ite (fun _ => .ok ⟨rfl, loaded⟩) (fun range => ?_)
  obtain ⟨inside, index⟩ := ni_of_range (s := u.s) (i := inum) (by omega) (by omega)
  rw [of.bit (by omega) (by omega), of.inode _ inside]
  refine Follows.ite (fun _ => .ok ⟨rfl, loaded⟩) (fun bit => Follows.ite (fun _ => .ok ⟨rfl, loaded⟩) (fun _ => ?_))
  have live : u.allocated inum.toNat := allocated_of_bit (by omega) (by omega) (by simpa using bit)
  refine Follows.ite (fun _ => .ok ⟨rfl, loaded⟩) (fun _ => ?_)
  refine (loaded.readLoop sound.disk_le (spares.before sound live) junk nbytes.toNat _ 0 (Nat.mod_lt _ (Nat.succ_pos 4095))
    buffer).bind (fun out s ⟨same, next⟩ => .ok ⟨?_, next⟩)
  rw [same]

theorem Loaded.answer (junk : Nat → Byte) (q : Query) :
    Follows (fun x y => x.1 = y.1 ∧ x.2 = u ∧ Loaded memory y.2 u.disk) (Icix.answer .host u q.call)
      (ramdiskAnswer memory junk v d q) := by
  cases q with
  | lookup pinum name =>
    exact (loaded.lookup sound spares of junk pinum name).map fun x y both => ⟨congrArg Answer.code both.1, rfl, both.2⟩
  | read inum buffer offset nbytes =>
    exact (loaded.ufsRead sound spares of junk inum buffer offset nbytes).map fun x y both =>
      ⟨congrArg (fun out => Answer.bytes out.1 out.2) both.1, rfl, both.2⟩

end Answers

/-- The metadata ends before the disk does. -/
structure Super.Short (s : Super) (len : Nat) : Prop where
  header : 40 < len
  inodeBitmap : s.ib + 4 * ((s.ni + 31) / 32) < len
  dataBitmap : s.db + 4 * ((s.nd + 31) / 32) < len
  inodeTable : s.it + 128 * s.ni < len

theorem bitmapSize_toNat {n : Word} (nonneg : 0 < n.toInt.toNat) (small : n.toInt.toNat < 2147483600) :
    (bitmapSize n).toNat = 4 * ((n.toInt.toNat + 31) / 32) := by
  have value : n.toInt = (n.toInt.toNat : Int) := by omega
  rw [bitmapSize, value, getBitmapSz_nat (by omega), BitVec.toNat_mul, BitVec.toNat_ofInt]
  simp only [Int.toNat_natCast]
  change _ * 4 % 4294967296 = _
  omega

section Init

variable {memory : Word → Byte} {d : Initrd} {file : Disk} (loaded : Loaded memory d file)
include loaded

theorem Loaded.seekRead (addr size : Word) (buf : Nat → Byte) (lseekFail readFail : String)
    (limit : file.len ≤ 2147483648) (inside : 4096 * addr.toNat + size.toNat < file.len) :
    ∃ e out, seekRead memory d addr size buf lseekFail readFail = .ok (out, e) ∧ Loaded memory e file ∧
      ∀ k < size.toNat, out k = file.byte (4096 * addr.toNat + k) := by
  have start : (addr * 4096).toNat = 4096 * addr.toNat := block_addr_zero (by omega)
  obtain ⟨out, read, bytes⟩ := (loaded.moved (addr * 4096)).read buf size (by dsimp only; omega)
  have codes : (0 : Word) ≠ -1 := by decide
  refine ⟨_, out, ?_, (loaded.moved (addr * 4096)).moved (addr * 4096 + size), fun k hk => ?_⟩
  · unfold Icix.seekRead
    simp only [loaded.lseek (by omega : (addr * 4096).toNat ≤ file.len), codes, if_false, read, ne_eq, not_true]
  · rw [bytes k hk]
    dsimp only
    rw [start]

/-- ufs_init, from the start of the image. -/
theorem Loaded.kernelInit (bufs : Arrays) {s : Super} (start : d.cursor = 0) (sound : s.Sound .host file.len)
    (short : s.Short file.len) (inodes : 0 < s.ni) (blocks : 0 < s.nd) (header : ∀ x < 40, file.byte x = s.bytes x) :
    ∃ v e, kernelInit memory d bufs = .ok (v, e) ∧ Loaded memory e file ∧ v.s = s ∧
      (∀ i : Nat, i < s.ni → getBitmap v.inodeBp i = getBitmap (wordAt (view file.byte s.ib)) i) ∧
      ∀ i < s.ni, v.inodes i = Inode.ofBytes (view file.byte (s.it + 128 * i)) := by
  obtain ⟨headerEnd, inodeEnd, dataEnd, tableEnd⟩ := short
  have limit : file.len ≤ 2147483648 := sound.disk_le
  have region := sound.data_le
  have zero : d.cursor.toNat = 0 := by rw [start]; rfl
  obtain ⟨bytes, read, same⟩ := loaded.read bufs.super 40 (by rw [zero]; exact headerEnd)
  have super : Super.ofBytes bytes = s := by
    rw [← Super.ofBytes_bytes s]
    refine Super.ofBytes_congr fun x hx => ?_
    rw [same x hx, zero, Nat.zero_add, header x hx]
  have niSize : (bitmapSize s.numInodes).toNat = 4 * ((s.ni + 31) / 32) := bitmapSize_toNat inodes (by change s.ni < 2147483600; omega)
  have ndSize : (bitmapSize s.numData).toNat = 4 * ((s.nd + 31) / 32) := bitmapSize_toNat blocks (by change s.nd < 2147483600; omega)
  have tableSize : (128 * s.numInodes).toNat = 128 * s.ni := by
    have value : s.numInodes.toNat = s.ni := by
      unfold Super.ni at inodes ⊢
      rw [BitVec.toInt_eq_toNat_cond] at inodes ⊢
      split at inodes <;> omega
    rw [BitVec.toNat_mul, value]
    exact Nat.mod_eq_of_lt (by omega : 128 * s.ni < 4294967296)
  obtain ⟨e₁, inodeBp, first, loaded₁, bits⟩ := (loaded.moved (d.cursor + 40)).seekRead s.inodeBitmapAddr
    (bitmapSize s.numInodes) bufs.inodeBp "ufs_init inode bitmap lseek fail" "ufs_init inode bitmap read fail" limit
    (by rw [niSize]; exact inodeEnd)
  obtain ⟨e₂, dataBp, second, loaded₂, -⟩ := loaded₁.seekRead s.dataBitmapAddr (bitmapSize s.numData) bufs.dataBp
    "ufs_init data bitmap lseek fail" "ufs_init data bitmap read fail" limit (by rw [ndSize]; exact dataEnd)
  obtain ⟨e₃, itable, third, loaded₃, records⟩ := loaded₂.seekRead s.inodeRegionAddr (128 * s.numInodes) bufs.inodes
    "ufs_init itable lseek fail" "ufs_init inode table read fail" limit (by rw [tableSize]; exact tableEnd)
  refine ⟨⟨s, wordAt inodeBp, wordAt dataBp, fun i => Inode.ofBytes (view itable (128 * i))⟩, e₃, ?_, loaded₃, rfl,
    fun i hi => ?_, fun i hi => ?_⟩
  · rw [kernelInit_eq]
    unfold readArrays
    simp only [read, ne_eq, not_true, if_false, super, first, ok_bind, second, third]
  · refine getBitmap_congr (wordAt_congr fun k hk => ?_)
    exact bits _ (by rw [niSize]; omega)
  · refine Inode.ofBytes_congr fun x hx => ?_
    rw [view_apply, records _ (by rw [tableSize]; omega), view_apply, Super.it, Nat.add_assoc]

end Init

/-- The image that mkfs makes ends with data blocks. -/
theorem short_of_mount {b : Build} {numInodes numData : Int} {stk : MkfsStack} {d : Disk}
    {dirtyInodeBp dirtyDataBp : Bitmap} {u : Ufs}
    (small : 4096 * imageBlocks numInodes.toNat numData.toNat < 2147483648)
    (formatted : mkfs numInodes numData stk = .ok d)
    (mounted : ufsInit b d 0 dirtyInodeBp dirtyDataBp = .ok u) : u.s.Short u.disk.len := by
  have geometry := geometry_of_mkfs small formatted
  rw [mkfs_ok geometry] at formatted
  cases Except.ok.inj formatted
  rw [ufsInit_image geometry] at mounted
  cases Except.ok.inj mounted
  have words := mkfsSuper_placement geometry
  obtain ⟨hib, hdb, hit, hdr, hI, hD, hT⟩ := words.regions
  have inodeBitmap := words.inodeBitmap_le
  have dataBitmap := words.dataBitmap_le
  have table := words.inodeTable_le
  have blocks := words.blocks_pos
  have ni : (mkfsSuper numInodes numData).ni = numInodes.toNat := by rw [Super.ni, words.inodes, Int.toNat_natCast]
  have nd : (mkfsSuper numInodes numData).nd = numData.toNat := by rw [Super.nd, words.blocks, Int.toNat_natCast]
  change (mkfsSuper numInodes numData).Short (4096 * imageBlocks numInodes.toNat numData.toNat)
  unfold imageBlocks
  refine ⟨by omega, ?_, ?_, ?_⟩
  · rw [hib, ni]
    omega
  · rw [hdb, nd]
    omega
  · rw [hit, ni]
    omega

/-- The host's side of a dialogue: a mounted state that is asked, and what it has answered. -/
def askHost (u : Ufs) (answers : List Answer) (q : Query) : Except Fault (List Answer) :=
  (answer .host u q.call).map fun out => answers ++ [out.1]

/- The kernel's side: the driver moves. -/
def askKernel (memory : Word → Byte) (junk : Nat → Byte) (v : Volume) (s : Initrd × List Answer) (q : Query) :
    Except Fault (Initrd × List Answer) :=
  (ramdiskAnswer memory junk v s.1 q).map fun out => (out.2, s.2 ++ [out.1])

/- The kernel has given the same answers. -/
def InStep (memory : Word → Byte) (u : Ufs) (answers : List Answer) (s : Initrd × List Answer) : Prop :=
  answers = s.2 ∧ Loaded memory s.1 u.disk

/-- The kernel mounts what the host has left, with the host's metadata. -/
theorem kernel_boots {numInodes numData : Int} {stk : MkfsStack} {d₀ : Disk} {dirtyInodeBp dirtyDataBp : Bitmap}
    {keep : Ufs → Call → Prop} {u₀ u : Ufs} {calls : List Call} {memory : Word → Byte} {d : Initrd}
    (small : 4096 * imageBlocks numInodes.toNat numData.toNat < 2147483648)
    (formatted : mkfs numInodes numData stk = .ok d₀)
    (mounted : ufsInit .host d₀ 0 dirtyInodeBp dirtyDataBp = .ok u₀)
    (run : Run (call .host) keep u₀ calls u) (synced : u.Synced)
    (loaded : Loaded memory d u.disk) (start : d.cursor = 0) (bufs : Arrays) :
    u.Sound .host ∧ u.Placed ∧ ∃ v e, kernelInit memory d bufs = .ok (v, e) ∧ Loaded memory e u.disk ∧ v.Of u := by
  have fresh := fresh_of_mount small formatted mounted
  obtain ⟨steady, s, len⟩ := run.invariant (fun v => v.Steady .host ∧ v.s = u₀.s ∧ v.disk.len = u₀.disk.len)
    (fun v c w ⟨steady, s, len⟩ _ returned => by
      obtain ⟨s', len', -⟩ := (call_effect steady.sound steady.placed returned).settled steady.sound steady.placed
      exact ⟨steady.call returned, s'.trans s, len'.trans len⟩)
    ⟨fresh.steady, rfl, rfl⟩
  have short : u.s.Short u.disk.len := s ▸ len ▸ short_of_mount small formatted mounted
  obtain ⟨v, e, init, loadedE, super, bits, inodes⟩ := loaded.kernelInit bufs start steady.sound short steady.inodes_pos
    steady.blocks_pos steady.header
  have of : v.Of u := by
    refine ⟨super, fun i hi => (bits i hi).trans (synced.inodeBit i hi), fun i hi => ?_⟩
    exact (inodes i hi).trans (synced.inode i hi)
  exact ⟨steady.sound, steady.placed, v, e, init, loadedE, of⟩

/- malloc for the file system: where it does not return within so many passes of its loop the
caller goes no further. -/
def kernelMalloc (passes : Nat) (h : Heap) (size : Word) : Except Fault Heap :=
  (allocate passes h size).mapError fun _ => .exit "malloc"

theorem kernelMalloc_ok {passes : Nat} {h h' : Heap} {size : Word} (returned : allocate passes h size = .ok h') :
    kernelMalloc passes h size = .ok h' := by
  rw [kernelMalloc, returned]
  rfl

/-- Calls that return in the kernel. -/
theorem Run.kernelMalloc {passes : Nat} {h h' : Heap} {sizes : List Word}
    (run : Run (allocate passes) (fun _ _ => True) h sizes h') :
    Run (Icix.kernelMalloc passes) (fun _ _ => True) h sizes h' := by
  induction run with
  | nil => exact .nil _
  | cons _ returned _ ih => exact .cons trivial (kernelMalloc_ok returned) ih

/-- ufs_init mounts with its calls of malloc as without them, if these return. -/
theorem ufsInit_kernelInit {memory : Word → Byte} {d e : Initrd} {bufs : Arrays} {v : Volume} {passes : Nat} {h h' : Heap}
    (init : kernelInit memory d bufs = .ok (v, e)) (mallocs : Run (allocate passes) (fun _ _ => True) h (initSizes v.s) h') :
    Ramdisk.ufsInit memory (kernelMalloc passes) d h bufs = .ok (v, e, h') := by
  rw [kernelInit_eq] at init
  have super : v.s = Super.ofBytes (initrdRead memory d bufs.super 40).2.2 := by
    split at init
    · cases init
    · exact (readArrays_super init).1
  rw [ufsInit_mallocs bufs (super ▸ Run.kernelMalloc mallocs), init]
  rfl

/-- The kernel finds on the RAM disk what the host has written. After any run of the host's calls
that has left memory and disk in agreement and the last data block to no file, ufs_init mounts the
loaded image if its calls of malloc return, and every dialogue of lookups and reads that the host's
state can have the kernel has too, answer by answer. -/
theorem initrd_serves_host {numInodes numData : Int} {stk : MkfsStack} {d₀ : Disk} {dirtyInodeBp dirtyDataBp : Bitmap}
    {u₀ u : Ufs} {calls : List Call} {memory : Word → Byte} {d : Initrd} {queries : List Query} {answers : List Answer}
    {passes : Nat} {h h' : Heap}
    (small : 4096 * imageBlocks numInodes.toNat numData.toNat < 2147483648)
    (formatted : mkfs numInodes numData stk = .ok d₀)
    (mounted : ufsInit .host d₀ 0 dirtyInodeBp dirtyDataBp = .ok u₀)
    (run : Run (call .host) (fun _ _ => True) u₀ calls u) (synced : u.Synced) (spares : u.SparesLast)
    (loaded : Loaded memory d u.disk) (start : d.cursor = 0)
    (mallocs : Run (allocate passes) (fun _ _ => True) h (initSizes u.s) h')
    (asked : Run (askHost u) (fun _ _ => True) [] queries answers) (bufs : Arrays) (junk : Nat → Byte) :
    ∃ v e e', Ramdisk.ufsInit memory (kernelMalloc passes) d h bufs = .ok (v, e, h') ∧
      Run (askKernel memory junk v) (fun _ _ => True) (e, []) queries (e', answers) := by
  obtain ⟨sound, _, v, e, init, loadedE, of⟩ := kernel_boots small formatted mounted run synced loaded start bufs
  have follows : ∃ t, Run (askKernel memory junk v) (fun _ _ => True) (e, []) queries t ∧ InStep memory u answers t :=
    run_follows (fun t s q ⟨same, here⟩ _ => (here.answer sound spares of junk q).map
      fun x y ⟨reply, _, next⟩ => ⟨by rw [same, reply], next⟩) asked ⟨rfl, loadedE⟩
  obtain ⟨⟨e', told⟩, kernel, same, -⟩ := follows
  dsimp only at same
  cases same
  exact ⟨v, e, e', ufsInit_kernelInit init (of.s ▸ mallocs), kernel⟩

/- The image at 2 MB. -/
def memoryOf (file : Disk) : Word → Byte := fun a => file.byte (a - 0x200000).toNat

theorem memoryOf_loaded {file : Disk} (len : file.len = 147456) : Loaded (memoryOf file) ramdisk file where
  endAddr := by
    rw [len]
    decide
  byte i hi := by
    have offset : ((0x200000 : Word) + BitVec.ofNat 32 i - 0x200000).toNat = i := by
      rw [BitVec.add_comm, BitVec.add_sub_cancel, BitVec.toNat_ofNat]
      omega
    exact congrArg file.byte offset

/- The host creates a file, which the kernel finds. Its memory begins where the image ends. -/
theorem initrd_serves_host_smallest : ∃ u start h v e e', Run (call .host) (fun _ _ => True) smallest
      [.creat 0 1 (letter 97 (by decide)) zeros] u ∧
    initPaging 4097 (bootMm ramdisk.endAddr) = some (.exit start) ∧
    Ramdisk.ufsInit (memoryOf u.disk) (kernelMalloc 2) ramdisk ⟨start, []⟩ zeroArrays = .ok (v, e, h) ∧
    Run (askKernel (memoryOf u.disk) (fun _ => 0) v) (fun _ _ => True) (e, [])
      [.lookup 0 (letter 97 (by decide)), .lookup 0 (letter 98 (by decide))] (e', [.code 1, .code (-1)]) := by
  have check : (ufsCreat .host smallest 0 1 (letter 97 (by decide)) zeros).map (fun out => (out.1,
      (decide (ufsLookup .host out.2 0 (letter 97 (by decide)) = .ok 1),
        decide (ufsLookup .host out.2 0 (letter 98 (by decide)) = .ok (-1))),
      getBitmap out.2.dataBp ((out.2.s.nd - 1 : Nat) : Int), out.2.disk.len, initSizes out.2.s)) =
        .ok (.committed, (true, true), false, 147456, [72, 4, 4, 4, 4, 4096]) := by decide +kernel
  obtain ⟨⟨r, u⟩, made, facts⟩ := map_ok.mp check
  simp only [Prod.mk.injEq, decide_eq_true_eq] at facts
  obtain ⟨rfl, ⟨found, absent⟩, clear, len, sizes⟩ := facts
  have returned : call .host smallest (.creat 0 1 (letter 97 (by decide)) zeros) = .ok u := by
    simp only [call, made]
    rfl
  have fresh := smallest_fresh .host
  obtain ⟨x, marked, flushed⟩ := commits_flushed fresh.sound fresh.owned.placed returned ⟨u, made⟩
  have synced := flushed.synced (marked.tracked fresh.sound fresh.tracked)
  have harmless : Harmless .host smallest (.creat 0 1 (letter 97 (by decide)) zeros) := trivial
  have owned := (call_effect fresh.sound fresh.owned.placed returned).owned fresh.sound fresh.owned harmless
  have asked : Run (askHost u) (fun _ _ => True) [] [.lookup 0 (letter 97 (by decide)), .lookup 0 (letter 98 (by decide))]
      [.code 1, .code (-1)] := by
    refine .cons (t := [.code 1]) trivial ?_ (.cons (t := [.code 1, .code (-1)]) trivial ?_ (.nil _))
    · simp only [askHost, Query.call, answer, found]
      rfl
    · simp only [askHost, Query.call, answer, absent]
      rfl
  have run : Run (call .host) (fun _ _ => True) smallest [.creat 0 1 (letter 97 (by decide)) zeros] u :=
    .cons trivial returned (.nil u)
  obtain ⟨start, h, booted, mallocs⟩ := @low_mallocs (bootMm ramdisk.endAddr) (initSizes u.s) 2 (fun _ _ _ => rfl)
    (by rw [sizes]; decide +kernel) (by rw [sizes]; simp)
  obtain ⟨v, e, e', init, kernel⟩ := initrd_serves_host (by decide) smallest_formatted (smallest_mounted .host) run synced
    (owned.sparesLast clear) (memoryOf_loaded len) rfl mallocs asked zeroArrays (fun _ => 0)
  exact ⟨u, start, h, v, e, e', run, booted, init, kernel⟩

end Icix
