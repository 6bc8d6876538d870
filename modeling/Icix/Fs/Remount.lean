import Icix.Fs.Ramdisk

/-! ufs_init of kernel/kernel/filesystem.c over the driver of the RAM disk. It seeks before all
reads but the first: the superblock comes from wherever the cursor was left. -/
namespace Icix
open Bytes Runs

/- What malloc returns for the superblock and the three arrays. -/
structure Arrays where
  super : Nat → Byte
  inodeBp : Nat → Byte
  dataBp : Nat → Byte
  inodes : Nat → Byte

section Mount

variable (memory : Word → Byte)

/-- A seek to a block and a read, each of which aborts where it is refused. -/
def seekRead (d : Initrd) (addr size : Word) (buf : Nat → Byte) (lseekFail readFail : String) :
    Except Fault ((Nat → Byte) × Initrd) :=
  let (rc, d) := initrdLseek d (addr * 4096)
  if rc = -1 then .error (.exit lseekFail)
  else
    let (rc, d, out) := initrdRead memory d buf size
    if rc ≠ size then .error (.exit readFail) else .ok (out, d)

def bitmapSize (n : Word) : Word := BitVec.ofInt 32 (getBitmapSz n.toInt) * 4

/- What it reads when it has the superblock. -/
def readArrays (d : Initrd) (s : Super) (bufs : Arrays) : Except Fault (Volume × Initrd) := do
  let (inodeBp, d) ← seekRead memory d s.inodeBitmapAddr (bitmapSize s.numInodes) bufs.inodeBp
    "ufs_init inode bitmap lseek fail" "ufs_init inode bitmap read fail"
  let (dataBp, d) ← seekRead memory d s.dataBitmapAddr (bitmapSize s.numData) bufs.dataBp
    "ufs_init data bitmap lseek fail" "ufs_init data bitmap read fail"
  let (inodes, d) ← seekRead memory d s.inodeRegionAddr (128 * s.numInodes) bufs.inodes
    "ufs_init itable lseek fail" "ufs_init inode table read fail"
  .ok (⟨s, wordAt inodeBp, wordAt dataBp, fun i => Inode.ofBytes (view inodes (128 * i))⟩, d)

/- What ufs_init asks malloc for: a ufs, the four bitmaps and the inode table. -/
def initSizes (s : Super) : List Word :=
  [72, bitmapSize s.numInodes, bitmapSize s.numData, bitmapSize s.numInodes, bitmapSize s.numData, 128 * s.numInodes]

/- ufs_init, over what malloc changes. -/
def Ramdisk.ufsInit {σ : Type} (malloc : σ → Word → Except Fault σ) (d : Initrd) (h : σ) (bufs : Arrays) :
    Except Fault (Volume × Initrd × σ) := do
  let h ← malloc h 72
  let (rc, d, bytes) := initrdRead memory d bufs.super 40
  if rc ≠ 40 then .error (.exit "ufs_init superblock read fail")
  else do
    let s := Super.ofBytes bytes
    let h ← malloc h (bitmapSize s.numInodes)
    let h ← malloc h (bitmapSize s.numData)
    let h ← malloc h (bitmapSize s.numInodes)
    let h ← malloc h (bitmapSize s.numData)
    let (inodeBp, d) ← seekRead memory d s.inodeBitmapAddr (bitmapSize s.numInodes) bufs.inodeBp
      "ufs_init inode bitmap lseek fail" "ufs_init inode bitmap read fail"
    let (dataBp, d) ← seekRead memory d s.dataBitmapAddr (bitmapSize s.numData) bufs.dataBp
      "ufs_init data bitmap lseek fail" "ufs_init data bitmap read fail"
    let (rc, d) := initrdLseek d (s.inodeRegionAddr * 4096)
    if rc = -1 then .error (.exit "ufs_init itable lseek fail")
    else do
      let h ← malloc h (128 * s.numInodes)
      let (rc, d, inodes) := initrdRead memory d bufs.inodes (128 * s.numInodes)
      if rc ≠ 128 * s.numInodes then .error (.exit "ufs_init inode table read fail")
      else .ok (⟨s, wordAt inodeBp, wordAt dataBp, fun i => Inode.ofBytes (view inodes (128 * i))⟩, d, h)

/- ufs_init where all its calls of malloc return. -/
def kernelInit (d : Initrd) (bufs : Arrays) : Except Fault (Volume × Initrd) :=
  (Ramdisk.ufsInit memory (fun h _ => .ok h) d () bufs).map fun out => (out.1, out.2.1)

/- What has been done with the driver before; an abort ends it. -/
inductive DriverUse where
  | lseek (offset : Word)
  | read (buf : Nat → Byte) (size : Word)
  | init (bufs : Arrays)

def driverUse (d : Initrd) : DriverUse → Except Fault Initrd
  | .lseek offset => .ok (initrdLseek d offset).2
  | .read buf size => .ok (initrdRead memory d buf size).2.1
  | .init bufs => (kernelInit memory d bufs).map Prod.snd

end Mount

/- The superblock that a read at the cursor gets. -/
def superAt (memory : Word → Byte) (d : Initrd) : Super := Super.ofBytes fun k => memory (d.source k)

/-- The driver's checks let a range through; one of no bytes only has to be sought. -/
def Initrd.Takes (d : Initrd) (addr size : Word) : Prop :=
  ¬ d.endAddr < d.startAddr + addr * 4096 ∧ (size = 0 ∨ ¬ d.endAddr ≤ d.startAddr + addr * 4096 + size)

instance (d : Initrd) (addr size : Word) : Decidable (d.Takes addr size) :=
  inferInstanceAs (Decidable (_ ∧ (_ ∨ _)))

/-- They let 40 bytes through at the cursor, and the three arrays of the superblock there. -/
structure Initrd.Mountable (memory : Word → Byte) (d : Initrd) : Prop where
  super : ¬ d.endAddr ≤ d.startAddr + d.cursor + 40
  inodeBp : d.Takes (superAt memory d).inodeBitmapAddr (bitmapSize (superAt memory d).numInodes)
  dataBp : d.Takes (superAt memory d).dataBitmapAddr (bitmapSize (superAt memory d).numData)
  inodes : d.Takes (superAt memory d).inodeRegionAddr (128 * (superAt memory d).numInodes)

section Reading

variable {memory : Word → Byte} {d : Initrd}

theorem initrdRead_rc {buf : Nat → Byte} {size : Word} : (initrdRead memory d buf size).1 = size ↔
    size = 0 ∨ ¬ d.endAddr ≤ d.startAddr + d.cursor + size := by
  unfold initrdRead
  split
  · rename_i past
    exact ⟨fun zero => .inl zero.symm, fun either => (either.resolve_right (not_not_intro past)).symm⟩
  · rename_i inside
    exact iff_of_true rfl (.inr inside)

/-- The driver's addresses stay as they are. -/
theorem initrdRead_addrs (buf : Nat → Byte) (size : Word) :
    (initrdRead memory d buf size).2.1 = { d with cursor := (initrdRead memory d buf size).2.1.cursor } := by
  unfold initrdRead
  split <;> rfl

theorem initrdLseek_addrs (offset : Word) :
    (initrdLseek d offset).2 = { d with cursor := (initrdLseek d offset).2.cursor } := by
  unfold initrdLseek
  split <;> rfl

section Seek

variable {addr size : Word} {buf : Nat → Byte} {lseekFail readFail : String}

theorem seekRead_past (past : d.endAddr < d.startAddr + addr * 4096) :
    seekRead memory d addr size buf lseekFail readFail = .error (.exit lseekFail) := by
  have refused : initrdLseek d (addr * 4096) = (-1, d) := if_pos past
  rw [seekRead, refused]
  rfl

theorem seekRead_sought (sought : ¬ d.endAddr < d.startAddr + addr * 4096) :
    seekRead memory d addr size buf lseekFail readFail =
      if (initrdRead memory { d with cursor := addr * 4096 } buf size).1 ≠ size then .error (.exit readFail)
      else .ok ((initrdRead memory { d with cursor := addr * 4096 } buf size).2.2,
        (initrdRead memory { d with cursor := addr * 4096 } buf size).2.1) := by
  have moved : initrdLseek d (addr * 4096) = (0, { d with cursor := addr * 4096 }) := if_neg sought
  rw [seekRead, moved]
  rfl

/-- A seek forgets where the cursor was. -/
theorem seekRead_cursor (cursor : Word) :
    seekRead memory { d with cursor := cursor } addr size buf lseekFail readFail =
      seekRead memory d addr size buf lseekFail readFail := by
  by_cases past : d.endAddr < d.startAddr + addr * 4096
  · rw [seekRead_past past]
    exact seekRead_past past
  · rw [seekRead_sought past]
    exact seekRead_sought past

theorem seekRead_takes : (∃ r, seekRead memory d addr size buf lseekFail readFail = .ok r) ↔ d.Takes addr size := by
  by_cases past : d.endAddr < d.startAddr + addr * 4096
  · rw [seekRead_past past]
    exact iff_of_false (fun ⟨r, ran⟩ => by cases ran) fun both => both.1 past
  · have read := @initrdRead_rc memory { d with cursor := addr * 4096 } buf size
    rw [seekRead_sought past, Initrd.Takes, ← read]
    by_cases whole : (initrdRead memory { d with cursor := addr * 4096 } buf size).1 = size
    · rw [if_neg (not_not_intro whole)]
      exact iff_of_true ⟨_, rfl⟩ ⟨past, whole⟩
    · rw [if_pos whole]
      exact iff_of_false (fun ⟨r, ran⟩ => by cases ran) fun both => whole both.2

theorem seekRead_addrs {r : (Nat → Byte) × Initrd} (ran : seekRead memory d addr size buf lseekFail readFail = .ok r) :
    r.2 = { d with cursor := r.2.cursor } := by
  by_cases past : d.endAddr < d.startAddr + addr * 4096
  · rw [seekRead_past past] at ran
    cases ran
  · rw [seekRead_sought past] at ran
    split at ran
    · cases ran
    · cases ran
      exact initrdRead_addrs ..

theorem seekRead_after {r : (Nat → Byte) × Initrd} (ran : seekRead memory d addr size buf lseekFail readFail = .ok r)
    (addr' size' : Word) (buf' : Nat → Byte) (lseekFail' readFail' : String) :
    seekRead memory r.2 addr' size' buf' lseekFail' readFail' = seekRead memory d addr' size' buf' lseekFail' readFail' := by
  rw [seekRead_addrs ran, seekRead_cursor]

end Seek

/-- The arrays do not depend on the cursor. -/
theorem readArrays_cursor (cursor : Word) (s : Super) (bufs : Arrays) :
    readArrays memory { d with cursor := cursor } s bufs = readArrays memory d s bufs := by
  rw [readArrays, seekRead_cursor]
  rfl

theorem readArrays_takes {s : Super} {bufs : Arrays} : (∃ r, readArrays memory d s bufs = .ok r) ↔
    d.Takes s.inodeBitmapAddr (bitmapSize s.numInodes) ∧ d.Takes s.dataBitmapAddr (bitmapSize s.numData) ∧
      d.Takes s.inodeRegionAddr (128 * s.numInodes) := by
  constructor
  · rintro ⟨r, ran⟩
    obtain ⟨r₁, first, ran⟩ := bind_ok.mp ran
    obtain ⟨r₂, second, ran⟩ := bind_ok.mp ran
    obtain ⟨r₃, third, -⟩ := bind_ok.mp ran
    rw [seekRead_after second, seekRead_after first] at third
    rw [seekRead_after first] at second
    exact ⟨seekRead_takes.mp ⟨_, first⟩, seekRead_takes.mp ⟨_, second⟩, seekRead_takes.mp ⟨_, third⟩⟩
  · rintro ⟨takes₁, takes₂, takes₃⟩
    obtain ⟨r₁, first⟩ := seekRead_takes.mpr takes₁
    obtain ⟨r₂, second⟩ := seekRead_takes.mpr takes₂
    obtain ⟨r₃, third⟩ := seekRead_takes.mpr takes₃
    rw [← seekRead_after first] at second third
    rw [← seekRead_after second] at third
    exact ⟨_, bind_ok.mpr ⟨r₁, first, bind_ok.mpr ⟨r₂, second, bind_ok.mpr ⟨r₃, third, rfl⟩⟩⟩⟩

theorem readArrays_super {s : Super} {bufs : Arrays} {r : Volume × Initrd} (ran : readArrays memory d s bufs = .ok r) :
    r.1.s = s ∧ r.2 = { d with cursor := r.2.cursor } := by
  obtain ⟨r₁, first, ran⟩ := bind_ok.mp ran
  obtain ⟨r₂, second, ran⟩ := bind_ok.mp ran
  obtain ⟨r₃, third, ran⟩ := bind_ok.mp ran
  have addrs₁ := seekRead_addrs first
  have addrs₂ := seekRead_addrs second
  have addrs₃ := seekRead_addrs third
  rw [addrs₂, addrs₁] at addrs₃
  cases Except.ok.inj ran
  exact ⟨rfl, addrs₃⟩

/-- Its calls of malloc make no other difference than whether they return. -/
theorem ufsInit_mallocs {σ : Type} {malloc : σ → Word → Except Fault σ} {h h' : σ} (bufs : Arrays)
    (mallocs : Run malloc (fun _ _ => True) h (initSizes (Super.ofBytes (initrdRead memory d bufs.super 40).2.2)) h') :
    Ramdisk.ufsInit memory malloc d h bufs =
      (if (initrdRead memory d bufs.super 40).1 ≠ 40 then .error (.exit "ufs_init superblock read fail")
      else readArrays memory (initrdRead memory d bufs.super 40).2.1
        (Super.ofBytes (initrdRead memory d bufs.super 40).2.2) bufs).map fun out => (out.1, out.2, h') := by
  obtain _ | ⟨-, whole, _ | ⟨-, inodeBp, _ | ⟨-, dataBp, _ | ⟨-, dirtyInodeBp, _ | ⟨-, dirtyDataBp, _ | ⟨-, inodes, _ | _⟩⟩⟩⟩⟩⟩ :=
    mallocs
  simp only [Ramdisk.ufsInit, readArrays, whole, inodeBp, dataBp, dirtyInodeBp, dirtyDataBp, ok_bind]
  split
  · rfl
  · generalize (initrdRead memory d bufs.super 40).2.1 = d₁ at *
    generalize Super.ofBytes (initrdRead memory d bufs.super 40).2.2 = s at *
    cases seekRead memory d₁ s.inodeBitmapAddr (bitmapSize s.numInodes) bufs.inodeBp
      "ufs_init inode bitmap lseek fail" "ufs_init inode bitmap read fail" with
    | error f => rfl
    | ok first =>
      simp only [ok_bind]
      cases seekRead memory first.2 s.dataBitmapAddr (bitmapSize s.numData) bufs.dataBp
        "ufs_init data bitmap lseek fail" "ufs_init data bitmap read fail" with
      | error f => rfl
      | ok second =>
        simp only [ok_bind, seekRead, inodes]
        split
        · rfl
        · split
          · rfl
          · rfl

theorem kernelInit_eq (bufs : Arrays) :
    kernelInit memory d bufs =
      if (initrdRead memory d bufs.super 40).1 ≠ 40 then .error (.exit "ufs_init superblock read fail")
      else readArrays memory (initrdRead memory d bufs.super 40).2.1
        (Super.ofBytes (initrdRead memory d bufs.super 40).2.2) bufs := by
  have mallocs : ∀ sizes, Run (fun (h : Unit) (_ : Word) => (.ok h : Except Fault Unit)) (fun _ _ => True) () sizes () := by
    intro sizes
    induction sizes with
    | nil => exact .nil ()
    | cons size sizes ih => exact .cons trivial rfl ih
  rw [kernelInit, ufsInit_mallocs bufs (mallocs _)]
  generalize (if (initrdRead memory d bufs.super 40).1 ≠ 40 then _ else _ : Except Fault (Volume × Initrd)) = out
  cases out <;> rfl

/-- ufs_init reads the arrays of the superblock at the cursor. -/
theorem kernelInit_read (bufs : Arrays) (super : ¬ d.endAddr ≤ d.startAddr + d.cursor + 40) :
    kernelInit memory d bufs = readArrays memory d (superAt memory d) bufs := by
  have read : initrdRead memory d bufs.super 40 = (40, { d with cursor := d.cursor + 40 },
      fun k => if k < (40 : Word).toNat then memory (d.source k) else bufs.super k) := if_neg super
  have bytes : Super.ofBytes (fun k => if k < (40 : Word).toNat then memory (d.source k) else bufs.super k) =
      superAt memory d := Super.ofBytes_congr fun k inside => if_pos inside
  rw [kernelInit_eq, read]
  dsimp only
  rw [if_neg (not_not_intro rfl), bytes, readArrays_cursor]

theorem kernelInit_short (bufs : Arrays) (short : d.endAddr ≤ d.startAddr + d.cursor + 40) :
    kernelInit memory d bufs = .error (.exit "ufs_init superblock read fail") := by
  have read : initrdRead memory d bufs.super 40 = (0, d, bufs.super) := if_pos short
  rw [kernelInit_eq, read]
  rfl

theorem kernelInit_mountable (bufs : Arrays) : (∃ r, kernelInit memory d bufs = .ok r) ↔ d.Mountable memory := by
  by_cases super : d.endAddr ≤ d.startAddr + d.cursor + 40
  · rw [kernelInit_short bufs super]
    exact iff_of_false (fun ⟨r, ran⟩ => by cases ran) fun mountable => mountable.super super
  · rw [kernelInit_read bufs super, readArrays_takes]
    exact ⟨fun ⟨inodeBp, dataBp, inodes⟩ => ⟨super, inodeBp, dataBp, inodes⟩,
      fun mountable => ⟨mountable.inodeBp, mountable.dataBp, mountable.inodes⟩⟩

theorem kernelInit_super {bufs : Arrays} {r : Volume × Initrd} (ran : kernelInit memory d bufs = .ok r) :
    r.1.s = superAt memory d ∧ r.2 = { d with cursor := r.2.cursor } := by
  have mountable := (kernelInit_mountable bufs).mp ⟨r, ran⟩
  rw [kernelInit_read bufs mountable.super] at ran
  exact readArrays_super ran

end Reading

/-- ufs_init mounts the same volume from both states, or aborts in both. -/
def MountsAlike (memory : Word → Byte) (bufs : Arrays) (d e : Initrd) : Prop :=
  (kernelInit memory d bufs).toOption.map Prod.fst = (kernelInit memory e bufs).toOption.map Prod.fst

theorem mountsAlike_iff {memory : Word → Byte} (bufs : Arrays) {d e : Initrd} (same : e = { d with cursor := e.cursor }) :
    MountsAlike memory bufs d e ↔ (¬ d.Mountable memory ∧ ¬ e.Mountable memory) ∨
      d.Mountable memory ∧ e.Mountable memory ∧ ∀ k < 40, memory (d.source k) = memory (e.source k) := by
  have mounts := fun d => @kernelInit_mountable memory d bufs
  unfold MountsAlike
  cases first : kernelInit memory d bufs with
  | error f =>
    have not : ¬ d.Mountable memory := fun mountable => by
      obtain ⟨r, ran⟩ := (mounts d).mpr mountable
      cases first.symm.trans ran
    cases second : kernelInit memory e bufs with
    | error g =>
      have not' : ¬ e.Mountable memory := fun mountable => by
        obtain ⟨r, ran⟩ := (mounts e).mpr mountable
        cases second.symm.trans ran
      exact iff_of_true rfl (.inl ⟨not, not'⟩)
    | ok r =>
      have is := (mounts e).mp ⟨r, second⟩
      exact iff_of_false (fun alike => by cases alike) fun either => either.elim (fun both => both.2 is) fun both => not both.1
  | ok r =>
    have is := (mounts d).mp ⟨r, first⟩
    cases second : kernelInit memory e bufs with
    | error g =>
      have not' : ¬ e.Mountable memory := fun mountable => by
        obtain ⟨r, ran⟩ := (mounts e).mpr mountable
        cases second.symm.trans ran
      exact iff_of_false (fun alike => by cases alike) fun either => either.elim (fun both => both.1 is) fun both => not' both.2.1
    | ok t =>
      have is' := (mounts e).mp ⟨t, second⟩
      have bytes : (∀ k < 40, memory (d.source k) = memory (e.source k)) ↔ superAt memory d = superAt memory e :=
        Super.ofBytes_inj.symm
      rw [bytes]
      constructor
      · intro alike
        have volume : r.1 = t.1 := Option.some.inj alike
        refine .inr ⟨is, is', ?_⟩
        rw [← (kernelInit_super first).1, ← (kernelInit_super second).1, volume]
      · rintro (⟨not, -⟩ | ⟨-, -, super⟩)
        · exact absurd is not
        · rw [kernelInit_read bufs is'.super, ← super, same, readArrays_cursor, ← kernelInit_read bufs is.super, first] at second
          cases Except.ok.inj second
          rfl

/-- What is done with the driver leaves its addresses as they are. -/
theorem driverUse_addrs {memory : Word → Byte} {d₀ d : Initrd} {uses : List DriverUse}
    (run : Run (driverUse memory) (fun _ _ => True) d₀ uses d) : d = { d₀ with cursor := d.cursor } := by
  refine run.invariant (fun d => d = { d₀ with cursor := d.cursor }) ?_ rfl
  intro s a t inv _ returned
  have step : t = { s with cursor := t.cursor } := by
    cases a with
    | lseek offset =>
      cases Except.ok.inj returned
      exact initrdLseek_addrs offset
    | read buf size =>
      cases Except.ok.inj returned
      exact initrdRead_addrs buf size
    | init bufs =>
      obtain ⟨r, ran, rfl⟩ := map_ok.mp returned
      exact (kernelInit_super ran).2
  rw [step, inv]

/-- Two states that the same driver gets into mount alike if and only if neither mounts, or both
do and have the same superblock at their cursors. -/
theorem mount_by_cursor {memory : Word → Byte} {d₀ d e : Initrd} {uses uses' : List DriverUse}
    (run : Run (driverUse memory) (fun _ _ => True) d₀ uses d)
    (run' : Run (driverUse memory) (fun _ _ => True) d₀ uses' e) (bufs : Arrays) :
    MountsAlike memory bufs d e ↔ (¬ d.Mountable memory ∧ ¬ e.Mountable memory) ∨
      d.Mountable memory ∧ e.Mountable memory ∧ ∀ k < 40, memory (d.source k) = memory (e.source k) := by
  apply mountsAlike_iff
  rw [driverUse_addrs run, driverUse_addrs run']

def zeroArrays : Arrays := ⟨fun _ => 0, fun _ => 0, fun _ => 0, fun _ => 0⟩

theorem ramdisk_mountable : ramdisk.Mountable ramdiskMemory :=
  ⟨by decide +kernel, by decide +kernel, by decide +kernel, by decide +kernel⟩

/- The smallest image, with a second superblock in its ninth block. -/
def secondMemory : Word → Byte := fun a =>
  if 0x208000 ≤ a ∧ a < 0x208028 then ramdiskMemory (a - 0x8000) else ramdiskMemory a

/- Mounted as it is, and by way of the second superblock. -/
theorem mount_by_cursor_second : ∃ e, Run (driverUse secondMemory) (fun _ _ => True) ramdisk [.lseek 0x8000] e ∧
    e.cursor ≠ ramdisk.cursor ∧ MountsAlike secondMemory zeroArrays ramdisk e := by
  have away : driverUse secondMemory ramdisk (.lseek 0x8000) = .ok ⟨0x200000, 0x8000, 0x224000⟩ := by
    rw [driverUse, initrdLseek_ok (by decide)]
    rfl
  have run : Run (driverUse secondMemory) (fun _ _ => True) ramdisk [.lseek 0x8000] ⟨0x200000, 0x8000, 0x224000⟩ :=
    .cons trivial away (.nil _)
  have first : ramdisk.Mountable secondMemory :=
    ⟨by decide +kernel, by decide +kernel, by decide +kernel, by decide +kernel⟩
  have second : Initrd.Mountable secondMemory ⟨0x200000, 0x8000, 0x224000⟩ :=
    ⟨by decide +kernel, by decide +kernel, by decide +kernel, by decide +kernel⟩
  refine ⟨_, run, by decide, (mount_by_cursor (.nil ramdisk) run zeroArrays).mpr (.inr ⟨first, second, ?_⟩)⟩
  decide +kernel

/-- ufs_init aborts after an earlier ufs_init, which has left the cursor behind the inode table. -/
theorem mount_twice_aborts : ∃ e, Run (driverUse ramdiskMemory) (fun _ _ => True) ramdisk [.init zeroArrays] e ∧
    ¬ MountsAlike ramdiskMemory zeroArrays ramdisk e := by
  obtain ⟨r, ran⟩ := (kernelInit_mountable zeroArrays).mpr ramdisk_mountable
  have cursor : (kernelInit ramdiskMemory ramdisk zeroArrays).toOption.map (fun r => r.2) =
      some ⟨0x200000, 0x4000, 0x224000⟩ := by decide +kernel
  rw [ran] at cursor
  have left : r.2 = ⟨0x200000, 0x4000, 0x224000⟩ := Option.some.inj cursor
  refine ⟨r.2, .cons trivial (map_ok.mpr ⟨r, ran, rfl⟩) (.nil _), fun alike => ?_⟩
  have addrs : r.2 = { ramdisk with cursor := r.2.cursor } := (kernelInit_super ran).2
  rcases (mountsAlike_iff zeroArrays addrs).mp alike with ⟨not, -⟩ | ⟨-, again, -⟩
  · exact not ramdisk_mountable
  · -- the first block of the data region begins with the entry "."
    have takes := again.inodeBp
    rw [left] at takes
    exact absurd takes (by decide +kernel)

end Icix
