import Icix.Fs.Entry

/-! ufs_creat in a dense directory: the parent gets its new entry in the slot after
its last one, a new directory gets its two, and everything else is kept. -/
namespace Icix
open Bytes Ownership

/-- Allocated inodes stay so, and what they hold keeps its place and its bytes, except
for byte x of inode q where skip q x. -/
structure Keeps (skip : Nat → Nat → Prop) (u v : Ufs) : Prop where
  allocated : ∀ q, u.allocated q → v.allocated q
  ptr : ∀ q a, u.allocated q → (u.inodes q).ptr a ≠ -1 → (v.inodes q).ptr a = (u.inodes q).ptr a
  byte : ∀ q x, u.allocated q → (u.inodes q).ptr (x / 4096) ≠ -1 → ¬ skip q x →
    v.fileByte q x = u.fileByte q x

namespace Keeps

variable {skip : Nat → Nat → Prop} {u v w : Ufs}

theorem trans (first : Keeps skip u v) (second : Keeps skip v w) : Keeps skip u w where
  allocated q live := second.allocated q (first.allocated q live)
  ptr q a live real := by
    have before := first.ptr q a live real
    rw [second.ptr q a (first.allocated q live) (before ▸ real), before]
  byte q x live real apart := by
    have before := first.ptr q _ live real
    rw [second.byte q x (first.allocated q live) (before ▸ real) apart, first.byte q x live real apart]

theorem weaken {skip' : Nat → Nat → Prop} (more : ∀ q x, skip q x → skip' q x) (keeps : Keeps skip u v) :
    Keeps skip' u v :=
  ⟨keeps.allocated, keeps.ptr, fun q x live real apart => keeps.byte q x live real (mt (more q x) apart)⟩

/-- Steps that leave the data blocks alone. -/
theorem same_disk (allocated : ∀ q, u.allocated q → v.allocated q) (disk : v.disk.byte = u.disk.byte)
    (ptr : ∀ q a, u.allocated q → (u.inodes q).ptr a ≠ -1 → (v.inodes q).ptr a = (u.inodes q).ptr a) :
    Keeps skip u v where
  allocated := allocated
  ptr := ptr
  byte q x live real _ := by rw [Ufs.fileByte, Ufs.fileByte, ptr q _ live real, disk]

theorem refl (skip : Nat → Nat → Prop) (u : Ufs) : Keeps skip u u :=
  same_disk (fun _ live => live) rfl (fun _ _ _ _ => rfl)

/-- A block whose bit is clear is nobody's. -/
theorem putFresh (owned : u.Owned) {k : Nat} (clear : getBitmap u.dataBp k = false) (src : Nat → Byte) :
    Keeps skip u (u.putBytes (4096 * (u.s.dr + k)) 4096 src) where
  allocated _ live := live
  ptr _ _ _ _ := rfl
  byte q x live real _ := by
    have used := owned.covered (q, x / 4096) _ (ref_eq_some.mpr ⟨live, real, rfl⟩)
    have other : ((u.inodes q).ptr (x / 4096)).toNat ≠ u.s.dr + k :=
      fun same => not_used_of_clear clear (same ▸ used)
    change blit u.disk.byte _ 4096 src (4096 * ((u.inodes q).ptr (x / 4096)).toNat + x % 4096) = _
    exact blit_outside _ _ (by omega)

/-- A block that one slot holds is no other slot's. -/
theorem putHeld (owned : u.Owned) {p a off n : Nat} (live : u.allocated p) (real : (u.inodes p).ptr a ≠ -1)
    (inside : off + n ≤ 4096) (src : Nat → Byte) :
    Keeps (fun q x => q = p ∧ 4096 * a + off ≤ x ∧ x < 4096 * a + off + n) u
      (u.putBytes (4096 * ((u.inodes p).ptr a).toNat + off) n src) where
  allocated _ live := live
  ptr _ _ _ _ := rfl
  byte q x liveQ realQ apart := by
    have byte := fileByte_blit (u := u) (v := u.putBytes (4096 * ((u.inodes p).ptr a).toNat + off) n src)
      (j := q) (x := x) inside rfl rfl
    rw [byte, if_neg]
    rintro ⟨same, low, high⟩
    have slots := owned.exclusive (q, x / 4096) (p, a) _ (ref_eq_some.mpr ⟨liveQ, realQ, same⟩)
      (ref_eq_some.mpr ⟨live, real, rfl⟩)
    obtain ⟨rfl, block⟩ := Prod.mk.inj slots
    exact apart ⟨rfl, by omega, by omega⟩

end Keeps

theorem MetaStep.keeps {b : Build} {skip : Nat → Nat → Prop} {u v : Ufs} (step : MetaStep u v)
    (sound : u.Sound b) (placed : u.Placed) : Keeps skip u v where
  allocated q live := (step.allocated q).mpr live
  ptr q a _ _ := by rw [step.inodes]
  byte _ _ live real _ := step.fileByte sound placed live real

theorem entInum_block {u : Ufs} {p a j : Nat} (hj : j < 128) :
    entInum (view (u.block p a) (32 * j)) = entInum (u.entry p (128 * a + j)) :=
  entInum_congr (fun _ hk => block_entry u p a hj hk)

/-- Directory p has its n used entries in its first slots, whatever their names are. -/
structure Ufs.Packed (u : Ufs) (p n : Nat) : Prop where
  size : (u.inodes p).size = BitVec.ofNat 32 (32 * n)
  length_le : n ≤ 3840
  ptr : ∀ a, (u.inodes p).ptr a ≠ -1 ↔ 128 * a < n
  used : ∀ t < n, entInum (u.entry p t) ≠ -1
  unused : ∀ t, n ≤ t → t < 128 * ((n + 127) / 128) → entInum (u.entry p t) = -1

namespace Ufs.Packed

variable {u v : Ufs} {p n : Nat} (packed : u.Packed p n)
include packed

/-- The slots of a packed directory's blocks are on the disk. -/
theorem real {t k : Nat} (inside : t < 128 * ((n + 127) / 128)) (hk : k < 32) :
    (u.inodes p).ptr ((32 * t + k) / 4096) ≠ -1 := by
  rw [packed.ptr]
  omega

theorem keeps {skip : Nat → Nat → Prop} (live : u.allocated p) (keeps : Keeps skip u v)
    (inode : v.inodes p = u.inodes p) (apart : ∀ x, ¬ skip p x) : v.Packed p n where
  size := inode ▸ packed.size
  length_le := packed.length_le
  ptr a := inode ▸ packed.ptr a
  used t h := by
    have same := entInum_congr (fun k hk => keeps.byte p (32 * t + k) live (packed.real (by omega) hk) (apart _))
    exact same.trans_ne (packed.used t h)
  unused t low high :=
    (entInum_congr (fun _ hk => keeps.byte p _ live (packed.real high hk) (apart _))).trans (packed.unused t low high)

/-- The first unused entry of a block that the directory has. -/
theorem firstUnused_block {a : Nat} (more : 128 * a < n) :
    firstUnused (u.block p a) = if 128 * a + 128 ≤ n then none else some (n - 128 * a) := by
  have used : ∀ j < 128, 128 * a + j < n → entInum (view (u.block p a) (32 * j)) ≠ -1 := by
    intro j hj inside
    rw [entInum_block hj]
    exact packed.used _ inside
  split
  · rename_i full
    refine List.find?_eq_none.mpr (fun j hj => ?_)
    have inside := List.mem_range.mp hj
    simpa using used j inside (by omega)
  · rename_i spare
    have last : n - 128 * a < 128 := by omega
    refine List.find?_range_eq_some.mpr ⟨?_, List.mem_range.mpr last, fun j hj => ?_⟩
    · rw [entInum_block last, packed.unused _ (by omega) (by omega)]
      rfl
    · simpa using used j (by omega) (by omega)

theorem full_iff : u.Full p ↔ n % 128 = 0 := by
  constructor
  · intro full
    by_contra partly
    have more : 128 * (n / 128) < n := by omega
    have none := full _ ((packed.ptr _).mpr more)
    rw [packed.firstUnused_block more, if_neg (by omega)] at none
    cases none
  · intro whole a real
    have more := (packed.ptr a).mp real
    rw [packed.firstUnused_block more, if_pos (by omega)]

theorem slots : (u.inodes p).size.toNat = 32 * n := by
  have le := packed.length_le
  rw [packed.size, BitVec.toNat_ofNat]
  omega

theorem size_ne : (u.inodes p).size ≠ 122880 ↔ n < 3840 := by
  have le := packed.length_le
  have value := packed.slots
  have max : (122880 : Word).toNat = 122880 := by decide
  constructor
  · intro other
    by_contra large
    exact other (BitVec.eq_of_toNat_eq (by omega))
  · intro less same
    rw [same, max] at value
    omega

/-- A full directory that is not as large as it can be has a slot for its next block. -/
theorem firstFree (room : n < 3840) (whole : n % 128 = 0) : firstFreePtr (u.inodes p) = some (n / 128) := by
  have empty : ∀ a, (u.inodes p).ptr a = -1 ↔ n ≤ 128 * a := by
    intro a
    have real := packed.ptr a
    by_cases same : (u.inodes p).ptr a = -1
    · simp only [same, ne_eq, not_true, false_iff, true_iff] at real ⊢
      omega
    · simp only [same, ne_eq, not_false_iff, true_iff, false_iff] at real ⊢
      omega
  refine List.find?_range_eq_some.mpr ⟨?_, List.mem_range.mpr (by omega), fun c hc => ?_⟩
  · simpa using (empty _).mpr (by omega)
  · simpa using (packed.ptr c).mpr (by omega)

theorem spare : (u.inodes p).size ≠ 122880 → u.Full p → firstFreePtr (u.inodes p) ≠ none := by
  intro room full
  rw [packed.firstFree (packed.size_ne.mp room) (packed.full_iff.mp full)]
  exact Option.some_ne_none _

end Ufs.Packed

namespace Ufs.Dense

variable {u v : Ufs} {p : Nat} {es : Entries} (dense : u.Dense p es)
include dense

theorem packed : u.Packed p es.length where
  size := dense.size
  length_le := dense.length_le
  ptr := dense.ptr
  used t h := (dense.entries t h).used.1
  unused := dense.unused

/-- A directory whose inode and bytes are kept has the entries it had. -/
theorem congr (inode : v.inodes p = u.inodes p)
    (byte : ∀ x, (u.inodes p).ptr (x / 4096) ≠ -1 → v.fileByte p x = u.fileByte p x) : v.Dense p es where
  size := inode ▸ dense.size
  length_le := dense.length_le
  ptr a := inode ▸ dense.ptr a
  entries t h := (dense.entries t h).congr (fun _ hk => (byte _ (dense.packed.real (by omega) hk)).symm)
  unused t low high := (entInum_congr (fun _ hk => byte _ (dense.packed.real high hk))).trans (dense.unused t low high)

theorem keeps {skip : Nat → Nat → Prop} (live : u.allocated p) (keeps : Keeps skip u v)
    (inode : v.inodes p = u.inodes p) (apart : ∀ x, ¬ skip p x) : v.Dense p es :=
  dense.congr inode (fun x real => keeps.byte p x live real (apart x))

end Ufs.Dense

/-- Directory p had n entries in u, and has m for its next one in w. -/
structure Extends (u : Ufs) (p n : Nat) (m : Nat → Byte) (w : Ufs) : Prop where
  keeps : Keeps (fun q x => q = p ∧ 32 * n ≤ x ∧ x < 32 * n + 32) u w
  size : (w.inodes p).size = BitVec.ofNat 32 (32 * (n + 1))
  ptr : ∀ a, (w.inodes p).ptr a ≠ -1 ↔ 128 * a < n + 1
  new : ∀ k < 32, w.entry p n k = m k
  unused : ∀ t, n + 1 ≤ t → t < 128 * ((n + 128) / 128) → entInum (w.entry p t) = -1

/-- The directory stays packed when the next entry is used. -/
theorem Extends.packed {u w : Ufs} {p n : Nat} {m : Nat → Byte} (ext : Extends u p n m w) (live : u.allocated p)
    (packed : u.Packed p n) (room : n < 3840) (used : entInum m ≠ -1) : w.Packed p (n + 1) := by
  refine ⟨ext.size, room, ext.ptr, fun t h => ?_, ext.unused⟩
  by_cases old : t < n
  · have same := entInum_congr fun k hk =>
      ext.keeps.byte p (32 * t + k) live (packed.real (by omega) hk) (by omega)
    exact same.trans_ne (packed.used t old)
  · have last : t = n := by omega
    rw [last, entInum_congr ext.new]
    exact used

/-- The directory stays dense when the next entry is one. -/
theorem Extends.dense {u w : Ufs} {p inum : Nat} {es : Entries} {m : Nat → Byte} {name : List Byte}
    (ext : Extends u p es.length m w) (live : u.allocated p) (dense : u.Dense p es)
    (room : es.length < 3840) (entry : EntryAt m name inum) : w.Dense p (es ++ [(name, inum)]) := by
  have length : (es ++ [(name, inum)]).length = es.length + 1 := List.length_append
  refine ⟨length ▸ ext.size, by omega, fun a => length ▸ ext.ptr a, fun t h => ?_, fun t low high => ?_⟩
  · by_cases old : t < es.length
    · rw [List.getElem_append_left old]
      exact (dense.entries t old).congr (fun k hk =>
        (ext.keeps.byte p _ live (dense.packed.real (by omega) hk) (by omega)).symm)
    · have last : t = es.length := by omega
      subst t
      rw [List.getElem_append_right (Nat.le_refl _)]
      simp only [Nat.sub_self, List.getElem_cons_zero]
      exact entry.congr (fun k hk => (ext.new k hk).symm)
  · rw [length] at low high
    exact ext.unused t low (by omega)

/-- The bytes that a new entry is made over: those of a new block when the last one is full. -/
def entryJunk (stk : Stack) (n : Nat) : Nat → Byte := if n % 128 = 0 then stk.newBlock else stk.dent

section Entering

variable {b : Build} {v x : Ufs} {p n inum : Nat} {name : CString} {stk : Stack} {full : Bool}
  (sound : v.Sound b) (owned : v.Owned) (live : v.allocated p) (packed : v.Packed p n) (room : n < 3840)
include sound owned live packed room

omit live in
/-- A full directory's entry is the first one of its next block. -/
theorem appended_extends {k : Nat} (hk : k < v.s.nd) (clear : getBitmap v.dataBp k = false)
    (fits : Fits b name) (whole : n % 128 = 0) :
    ∃ m, Made b name inum stk.newBlock m ∧
      Extends v p n m (grown (linkBlock (withEntryBlock b v inum k name stk) p (v.newBlock k)) p) := by
  have free := packed.firstFree room whole
  have hfree := firstFreePtr_some free
  rw [linkBlock_some (u := withEntryBlock b v inum k name stk) free]
  generalize final : grown _ p = w
  have value := newBlock_toNat sound hk
  have inode : w.inodes p = { (v.inodes p).setPtr (n / 128) (v.newBlock k) with
      size := (v.inodes p).size + 32 } := by
    rw [← final]
    simp only [grown, Ufs.setInode, Function.update_self, Inode.size_setPtr]
    congr 1
  have ptr : ∀ c, (w.inodes p).ptr c = if c = n / 128 then v.newBlock k else (v.inodes p).ptr c := by
    intro c
    rw [inode]
    exact Inode.ptr_setPtr _ hfree.1 _ c
  have disk : w.disk.byte = blit v.disk.byte (4096 * (v.s.dr + k)) 4096 (entryBytes b stk inum name) := by
    rw [← final]
    rfl
  -- the new block's bytes, counted from the directory's first one
  have byte : ∀ y < 4096, w.fileByte p (32 * n + y) = entryBytes b stk inum name y := by
    intro y hy
    have block : (32 * n + y) / 4096 = n / 128 := by omega
    have rem : (32 * n + y) % 4096 = y := by omega
    rw [Ufs.fileByte, block, rem, ptr, if_pos rfl, value, disk]
    exact blit_inside _ _ hy
  refine ⟨_, entryBytes_made fits stk inum, ?_, ?_, fun a => ?_, fun i hi => byte i (by omega), fun t low high => ?_⟩
  · refine (Keeps.putFresh owned clear (entryBytes b stk inum name)).trans (.same_disk (fun q liveQ => ?_) disk ?_)
    · refine (allocated_congr ?_ ?_ q).mpr liveQ <;> rw [← final] <;> rfl
    · intro q a liveQ real
      by_cases same : q = p
      · subst q
        have elsewhere : a ≠ n / 128 := by
          rintro rfl
          exact real hfree.2.1
        rw [ptr, if_neg elsewhere]
        rfl
      · rw [← final]
        exact congrArg (Inode.ptr · a) ((Function.update_of_ne same _ _).trans (Function.update_of_ne same _ _))
  · rw [inode]
    show (v.inodes p).size + 32 = _
    rw [packed.size, Nat.mul_succ, BitVec.ofNat_add]
    rfl
  · rw [ptr]
    by_cases last : a = n / 128
    · rw [if_pos last]
      exact ⟨fun _ => by omega, fun _ => newBlock_real sound hk⟩
    · rw [if_neg last, packed.ptr]
      omega
  · have slot : 1 ≤ t - n ∧ t - n < 128 := by omega
    refine (entInum_congr (fun i hi => ?_)).trans
      (entryBytes_unused b stk inum name slot.1 slot.2)
    have addr : 32 * t + i = 32 * n + (32 * (t - n) + i) := by omega
    rw [Ufs.entry, addr]
    exact byte _ (by omega)

omit sound room in
/-- Otherwise it goes to the first unused one of its last block. -/
theorem placed_extends {a j : Nat} (real : (v.inodes p).ptr a ≠ -1)
    (unused : firstUnused (v.block p a) = some j) :
    n % 128 ≠ 0 ∧ Made b name inum stk.dent (dentBytes b stk inum name) ∧
      Extends v p n (dentBytes b stk inum name)
        (grown (v.putBytes (4096 * ((v.inodes p).ptr a).toNat + 32 * j) 32 (dentBytes b stk inum name)) p) := by
  have more := (packed.ptr a).mp real
  have first := packed.firstUnused_block more
  rw [unused] at first
  split at first
  · cases first
  · rename_i spare
    have slot : j = n - 128 * a := Option.some.inj first
    have inside : 32 * j + 32 ≤ 4096 := by omega
    have held := Keeps.putHeld owned live real inside (dentBytes b stk inum name)
    generalize final : v.putBytes _ 32 _ = x at held ⊢
    have ptr : ∀ q c, (x.inodes q).ptr c = (v.inodes q).ptr c := fun q c => by rw [← final]; rfl
    have grow : (grown x p).inodes p = { x.inodes p with size := (x.inodes p).size + 32 } := Function.update_self ..
    have grows : Keeps (fun q y => q = p ∧ 32 * n ≤ y ∧ y < 32 * n + 32) x (grown x p) := by
      refine .same_disk (fun _ liveQ => liveQ) rfl (fun q c _ _ => ?_)
      by_cases same : q = p
      · subst q
        rw [grow]
        rfl
      · exact congrArg (Inode.ptr · c) (Function.update_of_ne same _ _)
    have byte : ∀ y, y / 4096 = a → (grown x p).fileByte p y =
        if 32 * j ≤ y % 4096 ∧ y % 4096 < 32 * j + 32 then dentBytes b stk inum name (y % 4096 - 32 * j)
        else v.fileByte p y := by
      intro y block
      have put : (grown x p).fileByte p y = _ :=
        fileByte_blit (u := v) inside (by rw [grow, ← final]; rfl) (by rw [← final]; rfl)
      rw [put, block]
      simp only [true_and]
    refine ⟨by omega, dentBytes_made stk inum, ?_, ?_, fun c => ?_, fun i hi => ?_, fun t low high => ?_⟩
    · refine (held.weaken ?_).trans grows
      rintro q y ⟨rfl, low, high⟩
      exact ⟨rfl, by omega, by omega⟩
    · rw [grow, ← final]
      show (v.inodes p).size + 32 = _
      rw [packed.size, Nat.mul_succ, BitVec.ofNat_add]
      rfl
    · rw [grow]
      show (x.inodes p).ptr c ≠ -1 ↔ _
      rw [ptr, packed.ptr]
      omega
    · rw [Ufs.entry, byte _ (by omega), if_pos (by omega)]
      congr 1
      omega
    · rw [← packed.unused t (by omega) (by omega)]
      refine entInum_congr (fun i hi => ?_)
      rw [Ufs.entry, byte _ (by omega), if_neg (by omega)]
      rfl

theorem Entered.extends (fullness : full = true ↔ v.Full p) (entered : Entered b v p inum name stk full x) :
    Fits b name ∧ ∃ m, Made b name inum (entryJunk stk n) m ∧ Extends v p n m (grown x p) := by
  cases entered with
  | @appended k hk clear room' fits =>
    have whole := packed.full_iff.mp (fullness.mp rfl)
    rw [entryJunk, if_pos whole]
    exact ⟨fits, appended_extends sound owned packed room hk clear fits whole⟩
  | placed ha before real unused fits =>
    obtain ⟨partly, made, ext⟩ := @placed_extends b _ p n inum name stk owned live packed _ _ real unused
    rw [entryJunk, if_neg partly]
    exact ⟨fits, _, made, ext⟩
  | nowhere all =>
    -- the slot that the next entry goes to is not full
    obtain ⟨real, none⟩ := all (n / 128) (by omega)
    have more := (packed.ptr _).mp real
    rw [packed.firstUnused_block more, if_neg (by omega)] at none
    cases none

end Entering

namespace Extends

variable {b : Build} {u v w : Ufs} {p n : Nat} {m : Nat → Byte}

theorem prior (ext : Extends v p n m w) (keeps : Keeps (fun _ _ => False) u v) : Extends u p n m w :=
  ⟨(keeps.weaken (fun _ _ skip => skip.elim)).trans ext.keeps, ext.size, ext.ptr, ext.new, ext.unused⟩

theorem committed (ext : Extends u p n m v) (live : u.allocated p) (sound : v.Sound b) (placed : v.Placed)
    (step : MetaStep v w) : Extends u p n m w where
  keeps := ext.keeps.trans (step.keeps sound placed)
  size := by rw [step.inodes]; exact ext.size
  ptr a := by rw [step.inodes]; exact ext.ptr a
  new k hk := by
    have real := (ext.ptr ((32 * n + k) / 4096)).mpr (by omega)
    exact (step.fileByte sound placed (ext.keeps.allocated p live) real).trans (ext.new k hk)
  unused t low high := by
    refine (entInum_congr (fun k hk => ?_)).trans (ext.unused t low high)
    have real := (ext.ptr ((32 * t + k) / 4096)).mpr (by omega)
    exact step.fileByte sound placed (ext.keeps.allocated p live) real

end Extends

theorem claimInode_keeps {skip : Nat → Nat → Prop} {u : Ufs} {inum : Nat} (hi : inum < u.s.ni)
    (clear : getBitmap u.inodeBp inum = false) (type : Word) : Keeps skip u (claimInode u inum type) := by
  refine .same_disk (fun q live => (claimInode_allocated hi type q).mpr (Or.inr live)) rfl (fun q a live _ => ?_)
  rw [claimInode_other type (claimed_ne live clear)]

theorem markDirty_keeps {skip : Nat → Nat → Prop} (u : Ufs) (p : Nat) : Keeps skip u (markDirty u p) :=
  .same_disk (fun _ live => live) rfl (fun _ _ _ _ => rfl)

/-- A directory with the block of a new one has itself and its parent. -/
theorem dirBytes_dense {b : Build} {w : Ufs} {p inum : Nat} {stk : Stack} {block : Word} (real : block ≠ -1)
    (size : (w.inodes inum).size = 64) (ptr : ∀ a, (w.inodes inum).ptr a = if a = 0 then block else -1)
    (byte : ∀ y < 4096, w.fileByte inum y = dirBytes b stk inum p y) (small : inum < 2147483648)
    (parentSmall : p < 2147483648) : w.Dense inum [([46], inum), ([46, 46], p)] := by
  obtain ⟨self, parent, rest⟩ := dirBytes_entries b stk small parentSmall
  refine ⟨size, show 2 ≤ 3840 by decide, fun a => ?_, fun t h => ?_, fun t low high => ?_⟩
  · rw [ptr]
    by_cases first : a = 0
    · subst a
      exact ⟨fun _ => show 0 < 2 by decide, fun _ => real⟩
    · simp only [if_neg first, ne_eq, not_true, false_iff, List.length_cons, List.length_nil]
      omega
  · have two : t = 0 ∨ t = 1 := by
      simp only [List.length_cons, List.length_nil] at h
      omega
    rcases two with rfl | rfl
    · exact self.congr (fun i hi => (byte _ (by omega)).symm)
    · exact parent.congr (fun i hi => (byte _ (by omega)).symm)
  · simp only [List.length_cons, List.length_nil] at low high
    exact (entInum_congr (fun i hi => byte _ (by omega))).trans (rest t low (by omega))

section Prepare

variable {b : Build} {u v : Ufs} {p inum : Nat} {type : Word} {stk : Stack}
  (empty : ∀ a, (u.inodes inum).ptr a = -1)
include empty

theorem Prepared.keeps {skip : Nat → Nat → Prop} (owned : u.Owned)
    (prepared : Prepared b u p inum type stk v) : Keeps skip u v := by
  have ptr : ∀ q a, u.allocated q → (u.inodes q).ptr a ≠ -1 → (v.inodes q).ptr a = (u.inodes q).ptr a := by
    intro q a _ real
    have other : q ≠ inum := by
      rintro rfl
      exact real (empty a)
    rw [prepared.other other]
  cases prepared with
  | file => exact .same_disk (fun _ live => live) rfl ptr
  | @directory k same hk clear =>
    exact (Keeps.putFresh owned clear (dirBytes b stk inum p)).trans (.same_disk (fun _ live => live) rfl ptr)

theorem withDirectory_dense {k : Nat} (sound : u.Sound b) (hk : k < u.s.nd) (small : inum < 2147483648)
    (parentSmall : p < 2147483648) :
    (withDirectory b u p inum k stk).Dense inum [([46], inum), ([46, 46], p)] := by
  have value := newBlock_toNat sound hk
  generalize dir : withDirectory b u p inum k stk = w
  have inode : w.inodes inum = Inode.setPtr { u.inodes inum with size := 64 } 0 (u.newBlock k) := by
    rw [← dir]
    exact Function.update_self ..
  have ptr : ∀ a, (w.inodes inum).ptr a = if a = 0 then u.newBlock k else -1 := by
    intro a
    rw [inode, Inode.ptr_setPtr _ (Nat.succ_pos 29)]
    split
    · rfl
    · exact empty a
  have bytes : ∀ y < 4096, w.fileByte inum y = dirBytes b stk inum p y := by
    intro y hy
    have block : y / 4096 = 0 := by omega
    have rem : y % 4096 = y := by omega
    rw [Ufs.fileByte, block, rem, ptr, if_pos rfl, value, ← dir]
    exact blit_inside _ _ hy
  exact dirBytes_dense (newBlock_real sound hk) (by rw [inode, Inode.size_setPtr]) ptr bytes small parentSmall

end Prepare

section Creating

variable {b : Build} {u w : Ufs} {p n inum : Nat} {type : Word} {name : CString} {stk : Stack}

/-- A creation that fails changes the inode that it has claimed and nothing else. -/
theorem Created.failed {skip : Nat → Nat → Prop} (live : u.allocated p) (hi : inum < u.s.ni)
    (clear : getBitmap u.inodeBp inum = false) (created : Created b u p inum type name stk .failed w) :
    Keeps skip u w ∧ w.inodes p = u.inodes p ∧ ∀ a, (w.inodes inum).ptr a = -1 := by
  have claim : Keeps skip u (claimInode u inum type) := claimInode_keeps hi clear type
  have other := claimed_ne live clear
  generalize failed : Creat.failed = r at created
  cases created with
  | early => exact ⟨claim, claimInode_other type other, claimInode_ptr u inum type⟩
  | nodata =>
    have inode : (markDirty (emptied (claimInode u inum type) inum) p).inodes inum =
        { (claimInode u inum type).inodes inum with size := 0 } := Function.update_self ..
    refine ⟨claim.trans (.same_disk (fun _ live => live) rfl (fun q a _ real => ?_)),
      (Function.update_of_ne other _ _).trans (claimInode_other type other), fun a => ?_⟩
    · by_cases same : q = inum
      · subst q
        rw [inode]
        rfl
      · exact congrArg (Inode.ptr · a) (Function.update_of_ne same _ _)
    · rw [inode]
      exact claimInode_ptr u inum type a
  | entered => cases failed

variable (sound : u.Sound b) (owned : u.Owned) (live : u.allocated p) (hi : inum < u.s.ni)
  (clear : getBitmap u.inodeBp inum = false) (packed : u.Packed p n)
include sound owned live hi clear packed

/-- A creation that commits extends its parent, and makes a new directory a dense one. -/
theorem Created.extends (created : Created b u p inum type name stk .committed w) :
    Fits b name ∧ n < 3840 ∧
      (∃ m, Made b name inum (entryJunk stk n) m ∧ Extends u p n m w) ∧
      (type = ufsDirectory → w.Dense inum [([46], inum), ([46, 46], p)]) := by
  have other := claimed_ne live clear
  obtain ⟨_, claim, newC, _⟩ := Created.start (u := u) hi clear type
  generalize committed : Creat.committed = r at created
  cases created with
  | early => cases committed
  | nodata => cases committed
  | @entered full v x w room fullness prepared entered committed =>
    have less := packed.size_ne.mp room
    have soundC := (claim True).sound sound
    have ownedC := (claim True).owned owned
    have prepare := prepared.allocates (t := True) soundC newC (claimInode_ptr u inum type)
    have keepsC : Keeps (fun _ _ => False) u (claimInode u inum type) := claimInode_keeps hi clear type
    have keepsV := keepsC.trans (prepared.keeps (claimInode_ptr u inum type) ownedC)
    have keeps := keepsV.trans (markDirty_keeps v p)
    have soundV : (markDirty v p).Sound b := prepare.sound soundC
    have ownedV := (markDirty_allocates (t := True) v p).owned (prepare.owned ownedC)
    have liveV := keeps.allocated p live
    have parent : (markDirty v p).inodes p = u.inodes p :=
      (prepared.other other).trans (claimInode_other type other)
    have packedV := packed.keeps live keeps parent (fun _ skip => skip)
    have step := entered.allocates soundV liveV
    have soundX : (grown x p).Sound b := step.sound soundV
    have placedX : (grown x p).Placed := (grown_allocates (t := True) x p).placed (step.placed ownedV.placed)
    obtain ⟨fits, m, made, ext⟩ := entered.extends soundV ownedV liveV packedV less
      (fullness.trans (packed.full_iff.trans packedV.full_iff.symm))
    have ext := ext.committed liveV soundX placedX committed.step
    refine ⟨fits, less, ⟨m, made, ext.prior keeps⟩, fun dir => ?_⟩
    cases prepared with
    | file file => exact absurd dir file
    | @directory k same hk bit =>
      have niSmall := u.s.ni_lt
      have new : (withDirectory b _ p inum k stk).Dense inum _ :=
        withDirectory_dense (claimInode_ptr u inum type) soundC hk (Nat.lt_trans hi niSmall)
          (Nat.lt_trans live.1 niSmall)
      refine new.keeps newC ((markDirty_keeps _ p).trans ext.keeps) ?_ (fun y skip => other skip.1.symm)
      calc
        w.inodes inum = (grown x p).inodes inum := congrFun committed.step.inodes inum
        _ = x.inodes inum := Function.update_of_ne other.symm _ _
        _ = _ := entered.inodes.2.2.1 inum other.symm

omit sound owned live hi clear in
/-- A packed directory that is not full has its unused entry before any empty slot. -/
theorem Ufs.Packed.not_stuck (fits : Fits b name) (partly : ¬ u.Full p) : ¬ Stuck b u p name := by
  rintro (large | ⟨a, _, empty, before⟩)
  · exact large fits
  · have past : ¬ 128 * a < n := fun more => (packed.ptr a).mpr more empty
    refine partly (packed.full_iff.mpr ?_)
    by_cases first : a = 0
    · have none : n = 0 := by omega
      rw [none]
    · obtain ⟨real, full⟩ := before (a - 1) (by omega)
      have more := (packed.ptr _).mp real
      rw [packed.firstUnused_block more] at full
      split at full
      · omega
      · cases full

/-- In a packed directory ufs_creat, once it has claimed an inode, returns. -/
theorem creatAt_returns (fits : Fits b name) (type : Word) (stk : Stack) :
    ∃ r w, creatAt b u p inum (emptyPosData u) type name stk = .ok (r, w) ∧
      Created b u p inum type name stk r w := by
  rcases creatAt_outcome sound owned.placed live hi clear type name stk with
    ⟨r, w, run, created⟩ | ⟨f, run, large | ⟨partly, v, prepared, stuck⟩⟩
  · exact ⟨r, w, run, created⟩
  · exact absurd fits large
  · obtain ⟨_, claim, _⟩ := Created.start (u := u) hi clear type
    have keepsC : Keeps (fun _ _ => False) u (claimInode u inum type) := claimInode_keeps hi clear type
    have keepsV := keepsC.trans (prepared.keeps (claimInode_ptr u inum type) ((claim True).owned owned))
    have other := claimed_ne live clear
    have parent : (markDirty v p).inodes p = u.inodes p :=
      (prepared.other other).trans (claimInode_other type other)
    have packedV := packed.keeps live (keepsV.trans (markDirty_keeps v p)) parent (fun _ skip => skip)
    refine absurd stuck (packedV.not_stuck fits (fun full => partly ?_))
    exact packed.full_iff.mpr (packedV.full_iff.mp full)

omit hi clear packed in
/-- In a dense directory ufs_creat returns for every name that an int can count. -/
theorem ufsCreat_returns {es : Entries} (dense : u.Dense p es) (dir : (u.inodes p).type = ufsDirectory)
    (small : name.chars.length < 2147483648) (type : Word) (stk : Stack) :
    ∃ r w, ufsCreat b u p type name stk = .ok (r, w) := by
  have bound := live.1
  unfold Super.ni at bound
  have lookup := ufsLookup_dense name sound owned.placed live dense dir
  unfold ufsCreat
  rw [if_neg (by omega), if_neg (by simp [live.2])]
  simp only [Int.toNat_natCast, dir, ne_eq, not_true, if_false]
  split
  · exact ⟨_, _, rfl⟩
  · rename_i short
    have fits : Fits b name := by
      rw [int32_eq (by omega) (by omega)] at short
      exact fun _ => by omega
    have found : ∃ inum, ufsLookup b u p name = .ok inum := by
      rw [lookup]
      split
      · exact ⟨_, rfl⟩
      · exact ⟨_, rfl⟩
    obtain ⟨inum, found⟩ := found
    rw [found]
    simp only [Runs.ok_bind]
    split
    · exact ⟨_, _, rfl⟩
    · split
      · exact ⟨_, _, rfl⟩
      · rename_i i new
        obtain ⟨hi, clear⟩ := emptyPosInode_some new
        obtain ⟨r, w, run, _⟩ := creatAt_returns sound owned live hi clear dense.packed fits type stk
        exact ⟨r, w, run⟩

end Creating

end Icix
