import Icix.Library.Bytes
import Icix.Library.Runs

/-! The RAM disk driver of kernel/arch/i386/drivers/initrd.c. The image lies in
memory between two addresses; its checks add addresses, offsets and sizes modulo
2^32 before they compare. -/
namespace Icix
open Bytes Runs

/- initrd_info_t. -/
structure Initrd where
  startAddr : Word
  cursor : Word
  endAddr : Word
  deriving DecidableEq

def initrdInit (d : Initrd) : Initrd := { d with cursor := 0 }

/-- Where byte k of a read comes from. -/
def Initrd.source (d : Initrd) (k : Nat) : Word := d.startAddr + d.cursor + BitVec.ofNat 32 k

/-- The number of bytes read, and the buffer. A read up to the very end is refused. -/
def initrdRead (memory : Word → Byte) (d : Initrd) (buf : Nat → Byte) (size : Word) :
    Word × Initrd × (Nat → Byte) :=
  if d.endAddr ≤ d.startAddr + d.cursor + size then (0, d, buf)
  else (size, { d with cursor := d.cursor + size },
    fun k => if k < size.toNat then memory (d.source k) else buf k)

def initrdLseek (d : Initrd) (offset : Word) : Word × Initrd :=
  if d.endAddr < d.startAddr + offset then (-1, d) else (0, { d with cursor := offset })

inductive DriverCall where
  | lseek (offset : Word)
  | read (buf : Nat → Byte) (size : Word)

/- The driver has no failures of its own: every call returns. -/
def driver (memory : Word → Byte) (d : Initrd) : DriverCall → Except Empty Initrd
  | .lseek offset => .ok (initrdLseek d offset).2
  | .read buf size => .ok (initrdRead memory d buf size).2.1

/-- A call is confined to the image: an offset or a range that leaves it is refused
without effect, and what a read copies comes from inside. -/
def Confined (memory : Word → Byte) (d : Initrd) : DriverCall → Prop
  | .lseek offset => d.endAddr.toNat < d.startAddr.toNat + offset.toNat → initrdLseek d offset = (-1, d)
  | .read buf size =>
    (d.endAddr.toNat < d.startAddr.toNat + d.cursor.toNat + size.toNat →
      initrdRead memory d buf size = (0, d, buf)) ∧
    ∀ k < (initrdRead memory d buf size).1.toNat,
      d.startAddr.toNat ≤ (d.source k).toNat ∧ (d.source k).toNat < d.endAddr.toNat

/- The sums that a call's check compares fit 32 bits. -/
def NoWrap (d : Initrd) : DriverCall → Prop
  | .lseek offset => d.startAddr.toNat + offset.toNat < 4294967296
  | .read _ size => d.startAddr.toNat + d.cursor.toNat + size.toNat < 4294967296

/-- The cursor is in the image or at its end. -/
def Initrd.Inside (d : Initrd) : Prop :=
  d.startAddr.toNat < d.endAddr.toNat ∧ d.startAddr.toNat + d.cursor.toNat ≤ d.endAddr.toNat

section Checks

variable {memory : Word → Byte} {d : Initrd} {buf : Nat → Byte} {size offset : Word}

theorem seek_sum (fits : d.startAddr.toNat + offset.toNat < 4294967296) :
    (d.startAddr + offset).toNat = d.startAddr.toNat + offset.toNat := by
  rw [BitVec.toNat_add]
  omega

theorem read_sum (fits : d.startAddr.toNat + d.cursor.toNat + size.toNat < 4294967296) :
    (d.startAddr + d.cursor + size).toNat = d.startAddr.toNat + d.cursor.toNat + size.toNat := by
  rw [BitVec.toNat_add, BitVec.toNat_add]
  omega

theorem initrdLseek_ok (inside : d.startAddr.toNat + offset.toNat ≤ d.endAddr.toNat) :
    initrdLseek d offset = (0, { d with cursor := offset }) := by
  have high := d.endAddr.isLt
  have fits : d.startAddr.toNat + offset.toNat < 4294967296 := by omega
  have sum := seek_sum fits
  refine if_neg (fun past => ?_)
  have less := BitVec.lt_def.mp past
  omega

theorem initrdRead_ok (inside : d.startAddr.toNat + d.cursor.toNat + size.toNat < d.endAddr.toNat) :
    initrdRead memory d buf size = (size, { d with cursor := d.cursor + size },
      fun k => if k < size.toNat then memory (d.source k) else buf k) := by
  have high := d.endAddr.isLt
  have fits : d.startAddr.toNat + d.cursor.toNat + size.toNat < 4294967296 := by omega
  have sum := read_sum fits
  refine if_neg (fun past => ?_)
  have less := BitVec.le_def.mp past
  omega

theorem initrdRead_refused (past : d.endAddr.toNat ≤ d.startAddr.toNat + d.cursor.toNat + size.toNat)
    (fits : d.startAddr.toNat + d.cursor.toNat + size.toNat < 4294967296) :
    initrdRead memory d buf size = (0, d, buf) := by
  have sum := read_sum fits
  exact if_pos (BitVec.le_def.mpr (by omega))

theorem source_toNat {k : Nat} (fits : d.startAddr.toNat + d.cursor.toNat + k < 4294967296) :
    (d.source k).toNat = d.startAddr.toNat + d.cursor.toNat + k := by
  rw [Initrd.source, BitVec.toNat_add, BitVec.toNat_add, BitVec.toNat_ofNat]
  omega

/-- A seek is confined exactly where its sum does not wrap: past 2^32 the sum is a
small address, and the check lets it through. -/
theorem confined_lseek (inside : d.Inside) :
    Confined memory d (.lseek offset) ↔ NoWrap d (.lseek offset) := by
  have high := d.endAddr.isLt
  have low := d.startAddr.isLt
  have off := offset.isLt
  obtain ⟨order, _⟩ := inside
  constructor
  · intro confined
    by_contra wraps
    change ¬ d.startAddr.toNat + offset.toNat < 4294967296 at wraps
    have refused := confined (by omega)
    have sum : (d.startAddr + offset).toNat = d.startAddr.toNat + offset.toNat - 4294967296 := by
      rw [BitVec.toNat_add]
      omega
    have accepted : initrdLseek d offset = (0, { d with cursor := offset }) :=
      if_neg (fun past => by have less := BitVec.lt_def.mp past; omega)
    rw [accepted] at refused
    have codes : (0 : Word) = -1 := congrArg Prod.fst refused
    exact absurd codes (by decide)
  · intro fits past
    have sum := seek_sum fits
    exact if_pos (BitVec.lt_def.mpr (by omega))

theorem confined_read (inside : d.Inside) :
    Confined memory d (.read buf size) ↔ NoWrap d (.read buf size) := by
  have high := d.endAddr.isLt
  have cursor := d.cursor.isLt
  have count := size.isLt
  obtain ⟨order, within⟩ := inside
  constructor
  · rintro ⟨refuses, _⟩
    by_contra wraps
    change ¬ d.startAddr.toNat + d.cursor.toNat + size.toNat < 4294967296 at wraps
    have refused := refuses (by omega)
    have sum : (d.startAddr + d.cursor + size).toNat =
        d.startAddr.toNat + d.cursor.toNat + size.toNat - 4294967296 := by
      rw [BitVec.toNat_add, BitVec.toNat_add]
      omega
    have accepted : (initrdRead memory d buf size).1 = size := by
      unfold initrdRead
      rw [if_neg (fun past => by have less := BitVec.le_def.mp past; omega)]
    rw [refused] at accepted
    have zero := congrArg BitVec.toNat accepted
    change 0 = size.toNat at zero
    omega
  · intro fits
    by_cases past : d.endAddr.toNat ≤ d.startAddr.toNat + d.cursor.toNat + size.toNat
    · have refused : initrdRead memory d buf size = (0, d, buf) := initrdRead_refused past fits
      refine ⟨fun _ => refused, fun k hk => ?_⟩
      rw [refused] at hk
      exact absurd hk (Nat.not_lt_zero k)
    · refine ⟨fun out => absurd (Nat.le_of_lt out) past, fun k hk => ?_⟩
      rw [initrdRead_ok (by omega)] at hk
      change k < size.toNat at hk
      have address := source_toNat (d := d) (k := k) (by omega)
      omega

theorem confined_iff {c : DriverCall} (inside : d.Inside) : Confined memory d c ↔ NoWrap d c := by
  cases c with
  | lseek => exact confined_lseek inside
  | read => exact confined_read inside

/-- A call whose sums do not wrap leaves the cursor in the image. -/
theorem Initrd.Inside.step {c : DriverCall} {e : Initrd} (inside : d.Inside) (fits : NoWrap d c)
    (returned : driver memory d c = .ok e) : e.Inside := by
  obtain ⟨order, within⟩ := inside
  cases c with
  | lseek offset =>
    cases Except.ok.inj returned
    have sum := seek_sum fits
    unfold initrdLseek
    split
    · exact ⟨order, within⟩
    · rename_i past
      have le := Nat.le_of_not_lt fun less => past (BitVec.lt_def.mpr less)
      exact ⟨order, sum ▸ le⟩
  | read buf size =>
    cases Except.ok.inj returned
    have sum := read_sum fits
    unfold initrdRead
    split
    · exact ⟨order, within⟩
    · rename_i past
      have less := Nat.lt_of_not_le fun le => past (BitVec.le_def.mpr le)
      have next : (d.cursor + size).toNat = d.cursor.toNat + size.toNat := by
        change d.startAddr.toNat + d.cursor.toNat + size.toNat < 4294967296 at fits
        rw [BitVec.toNat_add]
        omega
      exact ⟨order, by dsimp only; omega⟩

end Checks

/-- Over every run of seeks and reads whose sums do not wrap the cursor stays in the
image, and the next call is confined to the image if and only if its sum does not
wrap either. -/
theorem initrd_confined {memory : Word → Byte} {d e : Initrd} {calls : List DriverCall}
    (order : d.startAddr.toNat < d.endAddr.toNat) (run : Run (driver memory) NoWrap (initrdInit d) calls e) :
    e.startAddr.toNat + e.cursor.toNat ≤ e.endAddr.toNat ∧ ∀ c, Confined memory e c ↔ NoWrap e c := by
  have start : (initrdInit d).Inside := ⟨order, Nat.le_of_lt order⟩
  have inside := run.invariant Initrd.Inside (fun _ _ _ inside fits returned => inside.step fits returned) start
  exact ⟨inside.2, fun _ => confined_iff inside⟩

theorem initrd_confined_image : ∃ e, Run (driver fun _ => 0) NoWrap (initrdInit ⟨0x200000, 0, 0x300000⟩)
    [.lseek 0x1000, .read (fun _ => 0) 0x1000, .lseek 0x200000] e ∧
      e.startAddr.toNat + e.cursor.toNat ≤ e.endAddr.toNat := by
  have run : Run (driver fun _ => 0) NoWrap (initrdInit ⟨0x200000, 0, 0x300000⟩)
      [.lseek 0x1000, .read (fun _ => 0) 0x1000, .lseek 0x200000] ⟨0x200000, 0x2000, 0x300000⟩ :=
    .cons (by decide : 0x200000 + 0x1000 < 4294967296) rfl
      (.cons (by decide : 0x200000 + 0x1000 + 0x1000 < 4294967296) rfl
        (.cons (by decide : 0x200000 + 0x200000 < 4294967296) rfl (.nil _)))
  exact ⟨_, run, (initrd_confined (by decide) run).1⟩

/-- The address of an unallocated block, 0xFFFFF000, wraps to the page below the
image, which a read then copies. -/
theorem initrd_seek_wraps : ∃ e, initrdLseek (initrdInit ⟨0x200000, 0, 0x300000⟩) 0xFFFFF000 = (0, e) ∧
    (initrdRead (fun _ => 0) e (fun _ => 0) 0x1000).1 = 0x1000 ∧ e.source 0 = 0x1FF000 ∧
    ¬ Confined (fun _ => 0) (initrdInit ⟨0x200000, 0, 0x300000⟩) (.lseek 0xFFFFF000) ∧
    ¬ Confined (fun _ => 0) e (.read (fun _ => 0) 0x1000) := by
  have seek : initrdLseek (initrdInit ⟨0x200000, 0, 0x300000⟩) 0xFFFFF000 =
      (0, ⟨0x200000, 0xFFFFF000, 0x300000⟩) := by decide
  have read : (initrdRead (fun _ => 0) ⟨0x200000, 0xFFFFF000, 0x300000⟩ (fun _ => 0) 0x1000).1 = 0x1000 := by
    decide
  refine ⟨_, seek, read, by decide, fun confined => ?_, fun confined => ?_⟩
  · rw [confined (by decide)] at seek
    exact absurd (congrArg Prod.fst seek) (by decide)
  · have first := confined.2 0 (by rw [read]; decide)
    exact absurd first (by decide)

end Icix
