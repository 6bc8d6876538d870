import Icix.Fs.Commit

/-! Blocks as resources held by pointer slots, and inodes as sparse arrays of
bytes. What the steps of ufs_creat and ufs_write do to either is said here once:
an allocation, a write into a held block, and a change that touches neither. -/
namespace Icix
open Bytes Ownership

/- The slot (i, a) of an allocated inode holds the block its pointer names. -/
def Ufs.ref (u : Ufs) (slot : Nat × Nat) : Option Nat :=
  if u.allocated slot.1 ∧ (u.inodes slot.1).ptr slot.2 ≠ -1
  then some ((u.inodes slot.1).ptr slot.2).toNat else none

/- Blocks are counted from the disk's start, the data bitmap from the data region's. -/
def Ufs.used (u : Ufs) (d : Nat) : Prop := ∃ k < u.s.nd, d = u.s.dr + k ∧ getBitmap u.dataBp k = true

/-- No block is held twice, and every held block is a data block marked used. -/
structure Ufs.Owned (u : Ufs) : Prop where
  exclusive : Exclusive u.ref
  covered : Covered u.ref u.used

def Ufs.block (u : Ufs) (i a : Nat) : Nat → Byte :=
  view u.disk.byte (4096 * ((u.inodes i).ptr a).toNat)

def Ufs.fileByte (u : Ufs) (i x : Nat) : Byte :=
  u.disk.byte (4096 * ((u.inodes i).ptr (x / 4096)).toNat + x % 4096)

theorem ref_eq_some {u : Ufs} {i a d : Nat} :
    u.ref (i, a) = some d ↔
      u.allocated i ∧ (u.inodes i).ptr a ≠ -1 ∧ ((u.inodes i).ptr a).toNat = d := by
  unfold Ufs.ref
  split
  · rename_i held
    exact ⟨fun same => ⟨held.1, held.2, Option.some.inj same⟩, fun h => congrArg some h.2.2⟩
  · rename_i free
    exact ⟨fun same => (by cases same), fun h => absurd ⟨h.1, h.2.1⟩ free⟩

/-- Tables are equal when the same inodes are allocated and hold the same pointers. -/
theorem ref_congr {u v : Ufs} (allocated : ∀ i, v.allocated i ↔ u.allocated i)
    (ptr : ∀ i a, u.allocated i → (v.inodes i).ptr a = (u.inodes i).ptr a) : v.ref = u.ref := by
  funext ⟨i, a⟩
  unfold Ufs.ref
  by_cases h : u.allocated i
  · simp only [(allocated i).mpr h, h, ptr i a h, true_and]
  · simp only [mt (allocated i).mp h, h, false_and, if_false]

/-- A slot that was empty now holds block d; the rest is as before. -/
theorem ref_assign {u v : Ufs} {i a d : Nat} {p : Word} (allocated : ∀ j, v.allocated j ↔ u.allocated j)
    (live : u.allocated i) (value : p.toNat = d) (real : p ≠ -1)
    (other : ∀ j, j ≠ i → v.inodes j = u.inodes j)
    (ptr : ∀ c, (v.inodes i).ptr c = if c = a then p else (u.inodes i).ptr c) :
    v.ref = assign u.ref (i, a) d := by
  funext ⟨j, c⟩
  by_cases hj : j = i
  · subst j
    by_cases hc : c = a
    · subst c
      rw [assign, Function.update_self]
      exact ref_eq_some.mpr ⟨(allocated i).mpr live, by rw [ptr, if_pos rfl]; exact ⟨real, value⟩⟩
    · rw [assign, Function.update_of_ne (fun h => hc (congrArg Prod.snd h))]
      simp only [Ufs.ref, allocated, ptr, if_neg hc]
  · rw [assign, Function.update_of_ne (fun h => hj (congrArg Prod.fst h))]
    simp only [Ufs.ref, allocated, other j hj]

theorem used_mark {u v : Ufs} {k : Nat} (s : v.s = u.s) (hk : k < u.s.nd)
    (bits : ∀ j : Nat, getBitmap v.dataBp j = (decide (j = k) || getBitmap u.dataBp j)) (d : Nat) :
    v.used d ↔ d = u.s.dr + k ∨ u.used d := by
  unfold Ufs.used
  rw [s]
  constructor
  · rintro ⟨j, hj, same, bit⟩
    rw [bits, Bool.or_eq_true, decide_eq_true_eq] at bit
    rcases bit with rfl | old
    · exact Or.inl same
    · exact Or.inr ⟨j, hj, same, old⟩
  · rintro (same | ⟨j, hj, same, old⟩)
    · exact ⟨k, hk, same, by simp [bits]⟩
    · exact ⟨j, hj, same, by simp [bits, old]⟩

theorem not_used_of_clear {u : Ufs} {k : Nat} (clear : getBitmap u.dataBp k = false) :
    ¬ u.used (u.s.dr + k) := by
  rintro ⟨j, _, same, bit⟩
  have eq : j = k := by omega
  rw [eq, clear] at bit
  cases bit

/-- Every pointer other than -1 of an allocated inode names a block of the data region. -/
def Ufs.Placed (u : Ufs) : Prop :=
  ∀ i a, u.allocated i → (u.inodes i).ptr a ≠ -1 →
    u.s.dr ≤ ((u.inodes i).ptr a).toNat ∧ ((u.inodes i).ptr a).toNat < u.s.dr + u.s.nd

theorem Ufs.Owned.placed {u : Ufs} (owned : u.Owned) : u.Placed := by
  intro i a live real
  obtain ⟨k, hk, same, _⟩ := owned.covered (i, a) _ (ref_eq_some.mpr ⟨live, real, rfl⟩)
  omega

theorem data_outside {b : Build} {u : Ufs} (sound : u.Sound b) {d x : Nat} (low : u.s.dr ≤ d)
    (high : d < u.s.dr + u.s.nd) (hx : x < 4096) : ¬ u.s.InMeta (4096 * d + x) := by
  intro inMeta
  refine sound.meta_data _ inMeta ?_
  unfold Super.InData
  omega

/- A block of the data region lies on the disk, and its addresses fit in 32 bits. -/
section Region

variable {b : Build} {u : Ufs} {p : Word} (range : u.s.dr ≤ p.toNat ∧ p.toNat < u.s.dr + u.s.nd)
  (sound : u.Sound b)
include range sound

theorem region_end : 4096 * p.toNat + 4096 ≤ u.disk.len := by
  have last := sound.data_le
  omega

theorem region_addr {off : Nat} (inside : off < 4096) :
    (p * 4096 + BitVec.ofNat 32 off).toNat = 4096 * p.toNat + off := by
  have last := region_end range sound
  have small := sound.disk_le
  have limit := b.limit_lt
  exact block_addr (by omega)

theorem region_read {off n : Nat} (positive : 0 < n) (inside : off + n ≤ 4096) :
    Read b u.disk (p * 4096 + BitVec.ofNat 32 off) n = some (view u.disk.byte (4096 * p.toNat + off)) := by
  have last := region_end range sound
  have start : off < 4096 := by omega
  have addr := region_addr range sound start
  have fits : 4096 * p.toNat + off + n ≤ u.disk.len := by omega
  rw [Read_ok _ positive (addr ▸ fits) sound.disk_le, addr]

theorem region_write {off n : Nat} (positive : 0 < n) (inside : off + n ≤ 4096) (src : Nat → Byte) :
    Write b u.disk (p * 4096 + BitVec.ofNat 32 off) src n =
      some { u.disk with byte := blit u.disk.byte (4096 * p.toNat + off) n src } := by
  have last := region_end range sound
  have start : off < 4096 := by omega
  have addr := region_addr range sound start
  have fits : 4096 * p.toNat + off + n ≤ u.disk.len := by omega
  rw [Write_ok _ src positive (addr ▸ fits) sound.disk_le, addr]

/-- The same read without an offset, as ufs_creat and ufs_unlink read a whole block. -/
theorem region_block : Read b u.disk (p * 4096) 4096 = some (view u.disk.byte (4096 * p.toNat)) := by
  have none : 0 + 4096 ≤ 4096 := by decide
  have read := region_read range sound (Nat.succ_pos 4095) none
  rwa [show BitVec.ofNat 32 0 = 0#32 from rfl, BitVec.add_zero, Nat.add_zero] at read

end Region

/- So does a block that an allocated inode points at. -/
section Held

variable {b : Build} {u : Ufs} (placed : u.Placed) {i a : Nat} (live : u.allocated i)
  (real : (u.inodes i).ptr a ≠ -1)
include placed live real

theorem held_data {off : Nat} (inside : off < 4096) :
    u.s.InData (4096 * ((u.inodes i).ptr a).toNat + off) := by
  have range := placed i a live real
  unfold Super.InData
  omega

variable (sound : u.Sound b)
include sound

theorem held_end : 4096 * ((u.inodes i).ptr a).toNat + 4096 ≤ u.disk.len :=
  region_end (placed i a live real) sound

theorem held_addr {off : Nat} (inside : off < 4096) :
    ((u.inodes i).ptr a * 4096 + BitVec.ofNat 32 off).toNat = 4096 * ((u.inodes i).ptr a).toNat + off :=
  region_addr (placed i a live real) sound inside

theorem held_read {off n : Nat} (positive : 0 < n) (inside : off + n ≤ 4096) :
    Read b u.disk ((u.inodes i).ptr a * 4096 + BitVec.ofNat 32 off) n =
      some (view u.disk.byte (4096 * ((u.inodes i).ptr a).toNat + off)) :=
  region_read (placed i a live real) sound positive inside

theorem held_write {off n : Nat} (positive : 0 < n) (inside : off + n ≤ 4096) (src : Nat → Byte) :
    Write b u.disk ((u.inodes i).ptr a * 4096 + BitVec.ofNat 32 off) src n =
      some { u.disk with byte := blit u.disk.byte (4096 * ((u.inodes i).ptr a).toNat + off) n src } :=
  region_write (placed i a live real) sound positive inside src

theorem held_block : Read b u.disk ((u.inodes i).ptr a * 4096) 4096 = some (u.block i a) :=
  region_block (placed i a live real) sound

end Held

theorem newBlock_toNat {b : Build} {u : Ufs} (sound : u.Sound b) {k : Nat} (hk : k < u.s.nd) :
    (u.newBlock k).toNat = u.s.dr + k := by
  have last := sound.data_le
  have small := sound.disk_le
  have limit := b.limit_lt
  have fits : k + u.s.dr < 4294967296 := by omega
  rw [Ufs.newBlock, BitVec.toNat_add, BitVec.toNat_ofNat]
  change (k % 2 ^ 32 + u.s.dr) % 2 ^ 32 = u.s.dr + k
  omega

theorem newBlock_real {b : Build} {u : Ufs} (sound : u.Sound b) {k : Nat} (hk : k < u.s.nd) :
    u.newBlock k ≠ -1 := by
  intro same
  have value := newBlock_toNat sound hk
  have top : (-1 : Word).toNat = 4294967295 := by decide
  have last := sound.data_le
  have small := sound.disk_le
  have limit := b.limit_lt
  rw [same, top] at value
  omega

/-- The data bitmap records exactly the held blocks. -/
abbrev Ufs.Tight (u : Ufs) : Prop := Exact u.ref u.used

/-- A step that keeps what is held where it is, and may allocate. When t holds it
marks no block that it does not store. -/
structure Allocates (t : Prop) (u v : Ufs) : Prop where
  s : v.s = u.s
  len : v.disk.len = u.disk.len
  placed : u.Placed → v.Placed
  owned : u.Owned → v.Owned
  tight : t → u.Owned → u.Tight → v.Tight

namespace Allocates

variable {t : Prop} {u v w : Ufs}

theorem trans (first : Allocates t u v) (second : Allocates t v w) : Allocates t u w where
  s := second.s.trans first.s
  len := second.len.trans first.len
  placed old := second.placed (first.placed old)
  owned old := second.owned (first.owned old)
  tight ht old exact := second.tight ht (first.owned old) (first.tight ht old exact)

theorem weaken {t' : Prop} (step : Allocates t u v) (weaker : t' → t) : Allocates t' u v :=
  ⟨step.s, step.len, step.placed, step.owned, fun holds => step.tight (weaker holds)⟩

theorem sound {b : Build} (step : Allocates t u v) (sound : u.Sound b) : v.Sound b := by
  rw [Ufs.Sound, step.s, step.len]
  exact sound

/-- Steps that change neither the table of held blocks nor the data bitmap. -/
theorem same (s : v.s = u.s) (len : v.disk.len = u.disk.len) (ref : v.ref = u.ref)
    (dataBp : v.dataBp = u.dataBp) : Allocates t u v := by
  have used : v.used = u.used := by
    funext d
    unfold Ufs.used
    rw [s, dataBp]
  refine ⟨s, len, fun placed i a live real => ?_, fun old => ⟨ref ▸ old.exclusive, ?_⟩, fun _ _ old => ?_⟩
  · have held : u.ref (i, a) = some ((v.inodes i).ptr a).toNat :=
      ref ▸ ref_eq_some.mpr ⟨live, real, rfl⟩
    obtain ⟨liveU, realU, value⟩ := ref_eq_some.mp held
    rw [s, ← value]
    exact placed i a liveU realU
  · rw [ref, used]
    exact old.covered
  · rw [Ufs.Tight, ref, used]
    exact old

theorem congr (s : v.s = u.s) (len : v.disk.len = u.disk.len) (inodeBp : v.inodeBp = u.inodeBp)
    (dataBp : v.dataBp = u.dataBp) (ptr : ∀ i a, (v.inodes i).ptr a = (u.inodes i).ptr a) :
    Allocates t u v := by
  refine same s len (ref_congr (fun i => ?_) (fun i a _ => ptr i a)) dataBp
  unfold Ufs.allocated
  rw [s, inodeBp]

theorem refl (t : Prop) (u : Ufs) : Allocates t u u := same rfl rfl rfl rfl

end Allocates

/-- Storing the k-th block, whose bit was clear, in an empty slot and marking it. -/
theorem alloc_block {b : Build} {t : Prop} {u v : Ufs} {i a k : Nat} (sound : u.Sound b)
    (live : u.allocated i) (empty : (u.inodes i).ptr a = -1) (hk : k < u.s.nd)
    (clear : getBitmap u.dataBp k = false) (s : v.s = u.s) (len : v.disk.len = u.disk.len)
    (inodeBp : v.inodeBp = u.inodeBp) (other : ∀ j, j ≠ i → v.inodes j = u.inodes j)
    (ptr : ∀ c, (v.inodes i).ptr c = if c = a then u.newBlock k else (u.inodes i).ptr c)
    (bits : ∀ j : Nat, getBitmap v.dataBp j = (decide (j = k) || getBitmap u.dataBp j)) :
    Allocates t u v := by
  have allocated : ∀ j, v.allocated j ↔ u.allocated j := by
    intro j
    unfold Ufs.allocated
    rw [s, inodeBp]
  have value := newBlock_toNat sound hk
  have table := ref_assign allocated live value (newBlock_real sound hk) other ptr
  have marks := used_mark s hk bits
  have slot : u.ref (i, a) = none := by
    simp only [Ufs.ref, empty, ne_eq, not_true, and_false, if_false]
  refine ⟨s, len, fun placed j c liveJ real => ?_, fun owned => ⟨?_, ?_⟩, fun _ owned exact => ?_⟩
  · rw [s]
    by_cases same : j = i
    · subst j
      rw [ptr] at real ⊢
      split
      · omega
      · rename_i elsewhere
        rw [if_neg elsewhere] at real
        exact placed i c ((allocated i).mp liveJ) real
    · rw [other j same] at real ⊢
      exact placed j c ((allocated j).mp liveJ) real
  · rw [table]
    exact owned.exclusive.assign owned.covered (i, a) (not_used_of_clear clear)
  · rw [table]
    exact owned.covered.assign (i, a) marks
  · rw [Ufs.Tight, table]
    exact exact.assign slot marks

/- The bytes of a held block after n bytes at off of block d have been written. -/
theorem fileByte_blit {u v : Ufs} {j x d off n : Nat} {src : Nat → Byte} (inside : off + n ≤ 4096)
    (ptr : (v.inodes j).ptr (x / 4096) = (u.inodes j).ptr (x / 4096))
    (byte : v.disk.byte = blit u.disk.byte (4096 * d + off) n src) :
    v.fileByte j x =
      if ((u.inodes j).ptr (x / 4096)).toNat = d ∧ off ≤ x % 4096 ∧ x % 4096 < off + n
      then src (x % 4096 - off) else u.fileByte j x := by
  unfold Ufs.fileByte
  rw [ptr, byte]
  generalize ((u.inodes j).ptr (x / 4096)).toNat = e
  have small : x % 4096 < 4096 := Nat.mod_lt _ (by decide)
  generalize x % 4096 = r at small
  by_cases hit : e = d ∧ off ≤ r ∧ r < off + n
  · rw [if_pos hit]
    have addr : 4096 * e + r = 4096 * d + off + (r - off) := by omega
    rw [addr]
    exact blit_inside _ _ (by omega)
  · rw [if_neg hit]
    exact blit_outside _ _ (by omega)

theorem MetaStep.allocated {u v : Ufs} (step : MetaStep u v) (i : Nat) :
    v.allocated i ↔ u.allocated i := by
  unfold Ufs.allocated
  rw [step.s, step.inodeBp]

theorem MetaStep.allocates {t : Prop} {u v : Ufs} (step : MetaStep u v) : Allocates t u v :=
  .congr step.s step.len step.inodeBp step.dataBp (fun i a => by rw [step.inodes])

theorem MetaStep.fileByte {b : Build} {u v : Ufs} (step : MetaStep u v) (sound : u.Sound b)
    (placed : u.Placed) {j x : Nat} (live : u.allocated j) (real : (u.inodes j).ptr (x / 4096) ≠ -1) :
    v.fileByte j x = u.fileByte j x := by
  have data := held_data placed live real (Nat.mod_lt x (Nat.succ_pos 4095))
  unfold Ufs.fileByte
  rw [step.inodes]
  exact step.outside _ (fun inMeta => sound.meta_data _ inMeta data)

end Icix
