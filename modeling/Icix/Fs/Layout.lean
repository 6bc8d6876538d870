import Icix.Fs.Mkfs
import Icix.Library.Ownership
import Icix.Library.Runs

/-! Where the superblock puts things on the disk, when these places are sound,
and what a read or a write inside the disk does. -/
namespace Icix
open Bytes

/-- The addresses a disk of the build may have: the host's are non-negative ints;
the kernel's end below 0xFFFFF000, the address of the pointer -1. -/
def Build.limit : Build → Nat
  | .host => 2147483648
  | .kernel => 4294963200

def Super.InInodeBitmap (s : Super) (x : Nat) : Prop :=
  s.ib ≤ x ∧ x < s.ib + 4 * ((s.ni + 31) / 32)
def Super.InDataBitmap (s : Super) (x : Nat) : Prop :=
  s.db ≤ x ∧ x < s.db + 4 * ((s.nd + 31) / 32)
def Super.InInodeTable (s : Super) (x : Nat) : Prop :=
  s.it ≤ x ∧ x < s.it + 128 * s.ni
def Super.InData (s : Super) (x : Nat) : Prop :=
  4096 * s.dr ≤ x ∧ x < 4096 * (s.dr + s.nd)
def Super.InMeta (s : Super) (x : Nat) : Prop :=
  s.InInodeBitmap x ∨ s.InDataBitmap x ∨ s.InInodeTable x

/-- The regions lie on the disk and no two of them share a byte. -/
structure Super.Sound (b : Build) (s : Super) (len : Nat) : Prop where
  disk_le : len ≤ b.limit
  inodeBitmap_le : s.ib + 4 * ((s.ni + 31) / 32) ≤ len
  dataBitmap_le : s.db + 4 * ((s.nd + 31) / 32) ≤ len
  inodeTable_le : s.it + 128 * s.ni ≤ len
  data_le : 4096 * (s.dr + s.nd) ≤ len
  bitmaps : ∀ x, s.InInodeBitmap x → ¬ s.InDataBitmap x
  inodeBitmap_table : ∀ x, s.InInodeBitmap x → ¬ s.InInodeTable x
  dataBitmap_table : ∀ x, s.InDataBitmap x → ¬ s.InInodeTable x
  meta_data : ∀ x, s.InMeta x → ¬ s.InData x

abbrev Ufs.Sound (b : Build) (u : Ufs) : Prop := u.s.Sound b u.disk.len

theorem Build.limit_lt (b : Build) : b.limit < 4294967296 := by cases b <;> decide

theorem sizeT_ok (b : Build) {n : Nat} (small : n < 4294967296) : sizeT b n = n := by
  cases b <;> simp only [sizeT] <;> omega

theorem toInt_mod (w : Word) : (w.toInt % 4294967296).toNat = w.toNat := by
  have bound := w.isLt
  rw [BitVec.toInt_eq_toNat_cond]
  split <;> omega

/-- An address on the disk is found by both builds' lseek. -/
theorem lseek_ok {b : Build} {d : Disk} {addr : Word} (inside : addr.toNat < d.len)
    (small : d.len ≤ b.limit) : d.lseek b addr.toInt = some addr.toNat := by
  cases b with
  | host =>
    have bound : addr.toNat < 2147483648 := Nat.lt_of_lt_of_le inside small
    have value : addr.toInt = addr.toNat := by
      rw [BitVec.toInt_eq_toNat_cond, if_pos (by omega)]
    simp only [Disk.lseek, value]
    rw [if_neg (by omega)]
    rfl
  | kernel =>
    have le : addr.toNat ≤ d.len := Nat.le_of_lt inside
    simp only [Disk.lseek, toInt_mod, if_pos le]

theorem lseek_unsigned {b : Build} {d : Disk} {addr : Word} (inside : addr.toNat < d.len) :
    d.lseek b addr.toNat = some addr.toNat := by
  have bound := addr.isLt
  cases b with
  | host =>
    simp only [Disk.lseek]
    rw [if_neg (by omega)]
    rfl
  | kernel =>
    have same : ((addr.toNat : Int) % 4294967296).toNat = addr.toNat := by omega
    simp only [Disk.lseek, same, if_pos (Nat.le_of_lt inside)]

theorem lseek_cursor {b : Build} {d : Disk} {addr : Word} {cursor : Nat}
    (seek : d.lseek b addr.toNat = some cursor) : cursor = addr.toNat := by
  have bound := addr.isLt
  unfold Disk.lseek at seek
  cases b with
  | host =>
    dsimp only at seek
    rw [if_neg (by omega)] at seek
    exact (Option.some.inj seek).symm
  | kernel =>
    dsimp only at seek
    split at seek
    · have whole := Option.some.inj seek
      omega
    · cases seek

/- The addresses that lseek finds on a disk long enough: the host's are signed. -/
def Build.reach : Build → Nat
  | .host => 2147483648
  | .kernel => 4294967296

theorem Build.limit_le (b : Build) : b.limit ≤ b.reach := by cases b <;> decide

theorem Read_eq (b : Build) (d : Disk) (addr : Word) (n : Nat) :
    Read b d addr n =
      if addr.toNat < b.reach ∧ addr.toNat + n ≤ d.len then some (view d.byte addr.toNat) else none := by
  have bound := addr.isLt
  cases b with
  | host =>
    by_cases low : addr.toNat < 2147483648
    · have value : addr.toInt = addr.toNat := by
        rw [BitVec.toInt_eq_toNat_cond, if_pos (by omega)]
      have nonneg : ¬ (addr.toNat : Int) < 0 := by omega
      simp only [Read, Disk.lseek, value, if_neg nonneg, Option.bind_some, Int.toNat_natCast, Disk.read, Build.reach,
        low, true_and]
    · have negative : addr.toInt < 0 := by
        rw [BitVec.toInt_eq_toNat_cond]
        split <;> omega
      rw [if_neg (fun inside => low inside.1)]
      simp only [Read, Disk.lseek, if_pos negative, Option.bind_none]
  | kernel =>
    have low : addr.toNat < 4294967296 := bound
    simp only [Read, Disk.lseek, toInt_mod, Build.reach, low, true_and]
    by_cases le : addr.toNat ≤ d.len
    · simp only [if_pos le, Option.bind_some, Disk.read]
    · have past : ¬ addr.toNat + n ≤ d.len := by omega
      simp only [if_neg le, if_neg past, Option.bind_none]

theorem Read_ok {b : Build} {d : Disk} {n : Nat} (addr : Word) (positive : 0 < n)
    (inside : addr.toNat + n ≤ d.len) (small : d.len ≤ b.limit) :
    Read b d addr n = some (view d.byte addr.toNat) := by
  have reach := b.limit_le
  rw [Read_eq, if_pos ⟨by omega, inside⟩]

theorem Write_ok {b : Build} {d : Disk} {n : Nat} (addr : Word) (buf : Nat → Byte)
    (positive : 0 < n) (inside : addr.toNat + n ≤ d.len) (small : d.len ≤ b.limit) :
    Write b d addr buf n = some { d with byte := blit d.byte addr.toNat n buf } := by
  have start : addr.toNat < d.len := by omega
  simp only [Write, lseek_ok start small, Option.bind_some, Disk.write, if_pos inside]

/-- A read at the pointer -1 fails: the address is negative or past the end. -/
theorem Read_minus_one {b : Build} {d : Disk} (small : d.len ≤ b.limit) {n : Nat} {off : Nat}
    (positive : 0 < n) (inside : off < 4096) :
    Read b d ((-1 : Word) * 4096 + BitVec.ofNat 32 off) n = none := by
  have addr : ((-1 : Word) * 4096 + BitVec.ofNat 32 off).toNat = 4294963200 + off := by
    rw [BitVec.toNat_add, BitVec.toNat_ofNat]
    have base : ((-1 : Word) * 4096).toNat = 4294963200 := by decide
    rw [base]
    omega
  rw [Read_eq, addr, if_neg]
  rintro ⟨low, high⟩
  cases b with
  | host =>
    have bound : 4294963200 + off < 2147483648 := low
    omega
  | kernel =>
    have bound : d.len ≤ 4294963200 := small
    omega

/-- The address of a byte of a block that ends within 32 bits. -/
theorem block_addr {p : Word} {off : Nat} (fits : 4096 * p.toNat + off < 4294967296) :
    (p * 4096 + BitVec.ofNat 32 off).toNat = 4096 * p.toNat + off := by
  have four : (4096 : Word).toNat = 4096 := rfl
  rw [BitVec.toNat_add, BitVec.toNat_mul, BitVec.toNat_ofNat, four]
  omega

/-- The 4096 addresses of a block follow each other: its first is a multiple of 4096. -/
theorem block_base (p : Word) : ∃ q < 1048576, ∀ off < 4096,
    (p * 4096 + BitVec.ofNat 32 off).toNat = 4096 * q + off := by
  have four : (4096 : Word).toNat = 4096 := rfl
  refine ⟨p.toNat % 1048576, Nat.mod_lt _ (by decide), fun off inside => ?_⟩
  rw [BitVec.toNat_add, BitVec.toNat_mul, BitVec.toNat_ofNat, four]
  omega

theorem block_addr_zero {p : Word} (fits : 4096 * p.toNat < 4294967296) :
    (p * 4096).toNat = 4096 * p.toNat := by
  have four : (4096 : Word).toNat = 4096 := rfl
  rw [BitVec.toNat_mul, four]
  omega

/- A metadata address: the base of a region and a multiple of the item's size. -/
theorem item_addr {base i size : Nat} {p c : Word} (hp : 4096 * p.toNat = base) (hc : c.toNat = size)
    (hi : i < 4294967296) (fits : base + i * size < 4294967296) :
    (p * 4096 + BitVec.ofNat 32 i * c).toNat = base + i * size := by
  have four : (4096 : Word).toNat = 4096 := rfl
  rw [BitVec.toNat_add, BitVec.toNat_mul, BitVec.toNat_mul, BitVec.toNat_ofNat, four,
    Nat.mul_comm, hp, hc, Nat.mod_eq_of_lt hi]
  generalize i * size = offset at fits ⊢
  omega

end Icix
