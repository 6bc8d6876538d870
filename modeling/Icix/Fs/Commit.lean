import Icix.Fs.Layout

/-! commit_dirty_to_disk. Every difference between memory and disk is to be
covered by a dirty bit; one turn of either loop keeps that and clears one bit,
so after both loops nothing differs any more. -/
namespace Icix
open Bytes

/- The metadata as the disk has it. -/
def Ufs.diskInodeBp (u : Ufs) : Bitmap := wordAt (view u.disk.byte (u.s.ib))
def Ufs.diskDataBp (u : Ufs) : Bitmap := wordAt (view u.disk.byte (u.s.db))
def Ufs.diskInode (u : Ufs) (i : Nat) : Inode :=
  Inode.ofBytes (view u.disk.byte (u.s.it + 128 * i))

/-- What differs between memory and disk has its dirty bit set. -/
structure Ufs.Tracked (u : Ufs) : Prop where
  inodeBit : ∀ i : Nat, i < u.s.ni → getBitmap u.diskInodeBp i ≠ getBitmap u.inodeBp i →
    getBitmap u.dirtyInodeBp i = true
  inode : ∀ i : Nat, i < u.s.ni → u.diskInode i ≠ u.inodes i → getBitmap u.dirtyInodeBp i = true
  dataBit : ∀ k : Nat, k < u.s.nd → getBitmap u.diskDataBp k ≠ getBitmap u.dataBp k →
    getBitmap u.dirtyDataBp k = true

/-- The disk holds what memory holds. -/
structure Ufs.Synced (u : Ufs) : Prop where
  inodeBit : ∀ i : Nat, i < u.s.ni → getBitmap u.diskInodeBp i = getBitmap u.inodeBp i
  inode : ∀ i : Nat, i < u.s.ni → u.diskInode i = u.inodes i
  dataBit : ∀ k : Nat, k < u.s.nd → getBitmap u.diskDataBp k = getBitmap u.dataBp k

theorem Ufs.Tracked.synced {u : Ufs} (tracked : u.Tracked)
    (cleanInodes : ∀ i : Nat, i < u.s.ni → getBitmap u.dirtyInodeBp i = false)
    (cleanData : ∀ k : Nat, k < u.s.nd → getBitmap u.dirtyDataBp k = false) : u.Synced where
  inodeBit i hi := by
    by_contra differs
    exact absurd (tracked.inodeBit i hi differs) (by simp [cleanInodes i hi])
  inode i hi := by
    by_contra differs
    exact absurd (tracked.inode i hi differs) (by simp [cleanInodes i hi])
  dataBit k hk := by
    by_contra differs
    exact absurd (tracked.dataBit k hk differs) (by simp [cleanData k hk])

/-- A step before a commit: it writes nothing but data blocks, and sets the dirty bit
of whatever it changes in memory. -/
structure Marked (u v : Ufs) : Prop where
  s : v.s = u.s
  outside : ∀ x, ¬ u.s.InData x → v.disk.byte x = u.disk.byte x
  dirtyInodes : ∀ i : Nat, getBitmap u.dirtyInodeBp i = true → getBitmap v.dirtyInodeBp i = true
  dirtyData : ∀ k : Nat, getBitmap u.dirtyDataBp k = true → getBitmap v.dirtyDataBp k = true
  inodeBit : ∀ i : Nat, getBitmap v.inodeBp i ≠ getBitmap u.inodeBp i → getBitmap v.dirtyInodeBp i = true
  inode : ∀ i : Nat, v.inodes i ≠ u.inodes i → getBitmap v.dirtyInodeBp i = true
  dataBit : ∀ k : Nat, getBitmap v.dataBp k ≠ getBitmap u.dataBp k → getBitmap v.dirtyDataBp k = true

theorem Marked.refl (u : Ufs) : Marked u u where
  s := rfl
  outside _ _ := rfl
  dirtyInodes _ bit := bit
  dirtyData _ bit := bit
  inodeBit _ differs := absurd rfl differs
  inode _ differs := absurd rfl differs
  dataBit _ differs := absurd rfl differs

theorem Marked.trans {u v w : Ufs} (first : Marked u v) (second : Marked v w) : Marked u w where
  s := second.s.trans first.s
  outside x hx := (second.outside x (first.s.symm ▸ hx)).trans (first.outside x hx)
  dirtyInodes i bit := second.dirtyInodes i (first.dirtyInodes i bit)
  dirtyData k bit := second.dirtyData k (first.dirtyData k bit)
  inodeBit i differs := by
    by_cases later : getBitmap w.inodeBp i = getBitmap v.inodeBp i
    · exact second.dirtyInodes i (first.inodeBit i (later ▸ differs))
    · exact second.inodeBit i later
  inode i differs := by
    by_cases later : w.inodes i = v.inodes i
    · exact second.dirtyInodes i (first.inode i (later ▸ differs))
    · exact second.inode i later
  dataBit k differs := by
    by_cases later : getBitmap w.dataBp k = getBitmap v.dataBp k
    · exact second.dirtyData k (first.dataBit k (later ▸ differs))
    · exact second.dataBit k later

/-- Such a step leaves no difference without its dirty bit. -/
theorem Marked.tracked {b : Build} {u v : Ufs} (sound : u.Sound b) (step : Marked u v)
    (tracked : u.Tracked) : v.Tracked := by
  have bytes : ∀ x, u.s.InMeta x → v.disk.byte x = u.disk.byte x :=
    fun x inMeta => step.outside x (sound.meta_data x inMeta)
  constructor
  · intro i hi differs
    rw [step.s] at hi
    have word : v.diskInodeBp (i / 32) = u.diskInodeBp (i / 32) := by
      unfold Ufs.diskInodeBp
      rw [step.s]
      refine wordAt_congr (fun k hk => bytes _ (Or.inl ?_))
      unfold Super.InInodeBitmap
      omega
    rw [getBitmap_congr word] at differs
    by_cases old : getBitmap u.diskInodeBp i = getBitmap u.inodeBp i
    · exact step.inodeBit i (old ▸ differs.symm)
    · exact step.dirtyInodes i (tracked.inodeBit i hi old)
  · intro i hi differs
    rw [step.s] at hi
    have record : v.diskInode i = u.diskInode i := by
      unfold Ufs.diskInode
      rw [step.s]
      refine Inode.ofBytes_congr (fun x hx => bytes _ (Or.inr (Or.inr ?_)))
      unfold Super.InInodeTable
      omega
    rw [record] at differs
    by_cases old : u.diskInode i = u.inodes i
    · exact step.inode i (old ▸ differs.symm)
    · exact step.dirtyInodes i (tracked.inode i hi old)
  · intro k hk differs
    rw [step.s] at hk
    have word : v.diskDataBp (k / 32) = u.diskDataBp (k / 32) := by
      unfold Ufs.diskDataBp
      rw [step.s]
      refine wordAt_congr (fun c hc => bytes _ (Or.inr (Or.inl ?_)))
      unfold Super.InDataBitmap
      omega
    rw [getBitmap_congr word] at differs
    by_cases old : getBitmap u.diskDataBp k = getBitmap u.dataBp k
    · exact step.dataBit k (old ▸ differs.symm)
    · exact step.dirtyData k (tracked.dataBit k hk old)

theorem Marked.setInode (u : Ufs) {i : Nat} (dirty : getBitmap u.dirtyInodeBp i = true) (n : Inode) :
    Marked u (u.setInode i n) where
  s := rfl
  outside _ _ := rfl
  dirtyInodes _ bit := bit
  dirtyData _ bit := bit
  inodeBit _ differs := absurd rfl differs
  inode j differs := by
    by_cases same : j = i
    · exact same ▸ dirty
    · exact absurd (Function.update_of_ne same _ _) differs
  dataBit _ differs := absurd rfl differs

theorem Marked.markDirty (u : Ufs) (i : Nat) : Marked u (markDirty u i) where
  s := rfl
  outside _ _ := rfl
  dirtyInodes j bit := by rw [Icix.markDirty, get_set_nat, bit, Bool.or_true]
  dirtyData _ bit := bit
  inodeBit _ differs := absurd rfl differs
  inode _ differs := absurd rfl differs
  dataBit _ differs := absurd rfl differs

theorem Marked.markData (u : Ufs) (k : Nat) : Marked u (markData u k) where
  s := rfl
  outside _ _ := rfl
  dirtyInodes _ bit := bit
  dirtyData j bit := by rw [Icix.markData, get_set_nat, bit, Bool.or_true]
  inodeBit _ differs := absurd rfl differs
  inode _ differs := absurd rfl differs
  dataBit j differs := by
    by_cases same : j = k
    · exact same ▸ get_set_self u.dirtyDataBp k
    · exact absurd (by simp only [Icix.markData, get_set_nat, same, decide_false, Bool.false_or]) differs

theorem Marked.claimInode (u : Ufs) (i : Nat) (type : Word) : Marked u (claimInode u i type) where
  s := rfl
  outside _ _ := rfl
  dirtyInodes j bit := by rw [Icix.claimInode, get_set_nat, bit, Bool.or_true]
  dirtyData _ bit := bit
  inodeBit j differs := by
    by_cases same : j = i
    · exact same ▸ get_set_self u.dirtyInodeBp i
    · exact absurd (by simp only [Icix.claimInode, get_set_nat, same, decide_false, Bool.false_or]) differs
  inode j differs := by
    by_cases same : j = i
    · exact same ▸ get_set_self u.dirtyInodeBp i
    · exact absurd (Function.update_of_ne same _ _) differs
  dataBit _ differs := absurd rfl differs

/- The state after n bytes at address a of the disk have been written. -/
def Ufs.putBytes (u : Ufs) (a n : Nat) (src : Nat → Byte) : Ufs :=
  { u with disk := { u.disk with byte := blit u.disk.byte a n src } }

theorem Marked.putBytes {u : Ufs} {a n : Nat} (inside : ∀ k < n, u.s.InData (a + k)) (src : Nat → Byte) :
    Marked u (u.putBytes a n src) where
  s := rfl
  outside x hx := by
    refine blit_outside _ _ ?_
    by_contra hit
    have range := inside (x - a) (by omega)
    have addr : a + (x - a) = x := by omega
    exact hx (addr ▸ range)
  dirtyInodes _ bit := bit
  dirtyData _ bit := bit
  inodeBit _ differs := absurd rfl differs
  inode _ differs := absurd rfl differs
  dataBit _ differs := absurd rfl differs

/-- A step that writes metadata to the disk and leaves memory and the other bytes. -/
structure MetaStep (u u' : Ufs) : Prop where
  s : u'.s = u.s
  inodeBp : u'.inodeBp = u.inodeBp
  dataBp : u'.dataBp = u.dataBp
  inodes : u'.inodes = u.inodes
  len : u'.disk.len = u.disk.len
  outside : ∀ x, ¬ u.s.InMeta x → u'.disk.byte x = u.disk.byte x

theorem MetaStep.refl (u : Ufs) : MetaStep u u := ⟨rfl, rfl, rfl, rfl, rfl, fun _ _ => rfl⟩

theorem MetaStep.trans {u v w : Ufs} (first : MetaStep u v) (second : MetaStep v w) : MetaStep u w where
  s := second.s.trans first.s
  inodeBp := second.inodeBp.trans first.inodeBp
  dataBp := second.dataBp.trans first.dataBp
  inodes := second.inodes.trans first.inodes
  len := second.len.trans first.len
  outside x hx := (second.outside x (first.s.symm ▸ hx)).trans (first.outside x hx)

theorem MetaStep.sound {b : Build} {u u' : Ufs} (step : MetaStep u u') (sound : u.Sound b) :
    u'.Sound b := by
  rw [Ufs.Sound, step.s, step.len]
  exact sound

/- One turn of each loop on a set dirty bit. -/
def flushInode (u : Ufs) (i : Nat) : Ufs :=
  { u with
    disk.byte := blit (blit u.disk.byte (u.s.ib + i / 32 * 4) 4 (wordByte (u.inodeBp (i / 32))))
      (u.s.it + i * 128) 128 (u.inodes i).bytes
    dirtyInodeBp := resetBitmap u.dirtyInodeBp i }

def flushData (u : Ufs) (k : Nat) : Ufs :=
  { u with
    disk.byte := blit u.disk.byte (u.s.db + k / 32 * 4) 4 (wordByte (u.dataBp (k / 32)))
    dirtyDataBp := resetBitmap u.dirtyDataBp k }

theorem commitInode_dirty {b : Build} {u : Ufs} (sound : u.Sound b) {i : Nat} (hi : i < u.s.ni)
    (dirty : getBitmap u.dirtyInodeBp i = true) : commitInode b u i = some (flushInode u i) := by
  have limit := b.limit_lt
  have small := sound.disk_le
  have bitmap := sound.inodeBitmap_le
  have table := sound.inodeTable_le
  have wordEnd : u.s.ib + i / 32 * 4 + 4 ≤ u.disk.len := by omega
  have recordEnd : u.s.it + i * 128 + 128 ≤ u.disk.len := by omega
  have word : (u.s.inodeBitmapAddr * 4096 + BitVec.ofNat 32 (i / 32) * 4).toNat =
      u.s.ib + i / 32 * 4 := item_addr rfl (by decide) (by omega) (by omega)
  have record : (u.s.inodeRegionAddr * 4096 + BitVec.ofNat 32 i * 128).toNat =
      u.s.it + i * 128 := item_addr rfl (by decide) (by omega) (by omega)
  have first := Write_ok (b := b) (d := u.disk) (n := 4) (u.s.inodeBitmapAddr * 4096 + BitVec.ofNat 32 (i / 32) * 4)
    (wordByte (u.inodeBp (i / 32))) (by decide) (word ▸ wordEnd) small
  have second := fun m => Write_ok (b := b) (d := { u.disk with byte := m }) (n := 128)
    (u.s.inodeRegionAddr * 4096 + BitVec.ofNat 32 i * 128) (u.inodes i).bytes (by decide) (record ▸ recordEnd) small
  simp only [commitInode, dirty, if_true, first, Option.bind_some, second, Option.map_some, word, record]
  rfl

theorem commitData_dirty {b : Build} {u : Ufs} (sound : u.Sound b) {k : Nat} (hk : k < u.s.nd)
    (dirty : getBitmap u.dirtyDataBp k = true) : commitData b u k = some (flushData u k) := by
  have limit := b.limit_lt
  have small := sound.disk_le
  have bitmap := sound.dataBitmap_le
  have wordEnd : u.s.db + k / 32 * 4 + 4 ≤ u.disk.len := by omega
  have word : (u.s.dataBitmapAddr * 4096 + BitVec.ofNat 32 (k / 32) * 4).toNat =
      u.s.db + k / 32 * 4 := item_addr rfl (by decide) (by omega) (by omega)
  have write := Write_ok (b := b) (d := u.disk) (n := 4) (u.s.dataBitmapAddr * 4096 + BitVec.ofNat 32 (k / 32) * 4)
    (wordByte (u.dataBp (k / 32))) (by decide) (word ▸ wordEnd) small
  simp only [commitData, dirty, if_true, write, Option.map_some, word]
  rfl

theorem flushInode_meta {u : Ufs} {i : Nat} (hi : i < u.s.ni) : MetaStep u (flushInode u i) := by
  refine ⟨rfl, rfl, rfl, rfl, rfl, fun x hx => ?_⟩
  have word : ¬ u.s.InInodeBitmap x := fun inside => hx (Or.inl inside)
  have record : ¬ u.s.InInodeTable x := fun inside => hx (Or.inr (Or.inr inside))
  unfold Super.InInodeBitmap at word
  unfold Super.InInodeTable at record
  exact (blit_outside _ _ (by omega)).trans (blit_outside _ _ (by omega))

theorem flushData_meta {u : Ufs} {k : Nat} (hk : k < u.s.nd) : MetaStep u (flushData u k) := by
  refine ⟨rfl, rfl, rfl, rfl, rfl, fun x hx => ?_⟩
  have word : ¬ u.s.InDataBitmap x := fun inside => hx (Or.inr (Or.inl inside))
  unfold Super.InDataBitmap at word
  exact blit_outside _ _ (by omega)

/- What the disk's three views are after one turn of a loop. -/
section Views

variable {b : Build} {u : Ufs} (sound : u.Sound b)
include sound

theorem flushInode_word {i j : Nat} (hi : i < u.s.ni) (hj : j < u.s.ni) :
    (flushInode u i).diskInodeBp (j / 32) =
      if j / 32 = i / 32 then u.inodeBp (j / 32) else u.diskInodeBp (j / 32) := by
  have record : ∀ k < 4, u.s.ib + 4 * (j / 32) + k < u.s.it + i * 128 ∨
      u.s.it + i * 128 + 128 ≤ u.s.ib + 4 * (j / 32) + k := by
    intro k hk
    have apart := sound.inodeBitmap_table (u.s.ib + 4 * (j / 32) + k)
    simp only [Super.InInodeBitmap, Super.InInodeTable] at apart
    omega
  have store := wordAt_store_other (blit u.disk.byte (u.s.ib + i / 32 * 4) 4 (wordByte (u.inodeBp (i / 32))))
    (u.inodes i).bytes record
  by_cases same : j / 32 = i / 32
  · rw [if_pos same, same]
    exact (same ▸ store).trans (wordAt_store _ _ _ _)
  · rw [if_neg same]
    exact store.trans (wordAt_store_other _ _ (fun k hk => by omega))

theorem flushInode_record {i j : Nat} (hi : i < u.s.ni) (hj : j < u.s.ni) :
    (flushInode u i).diskInode j = if j = i then u.inodes j else u.diskInode j := by
  by_cases same : j = i
  · subst j
    rw [if_pos rfl, ← Inode.ofBytes_bytes (u.inodes i)]
    apply Inode.ofBytes_congr
    intro x hx
    have addr : u.s.it + 128 * i + x = u.s.it + i * 128 + x := by omega
    simp only [view_apply, flushInode, addr]
    exact blit_inside _ _ hx
  · rw [if_neg same]
    apply Inode.ofBytes_congr
    intro x hx
    have apart := sound.inodeBitmap_table (u.s.it + 128 * j + x)
    have base : (flushInode u i).s.it = u.s.it := rfl
    simp only [Super.InInodeBitmap, Super.InInodeTable] at apart
    exact (blit_outside _ _ (by omega)).trans (blit_outside _ _ (by omega))

theorem flushInode_data {i k : Nat} (hi : i < u.s.ni) (hk : k < u.s.nd) :
    (flushInode u i).diskDataBp (k / 32) = u.diskDataBp (k / 32) := by
  have table : ∀ c < 4, u.s.db + 4 * (k / 32) + c < u.s.it + i * 128 ∨
      u.s.it + i * 128 + 128 ≤ u.s.db + 4 * (k / 32) + c := by
    intro c hc
    have apart := sound.dataBitmap_table (u.s.db + 4 * (k / 32) + c)
    simp only [Super.InDataBitmap, Super.InInodeTable] at apart
    omega
  have bitmap : ∀ c < 4, u.s.db + 4 * (k / 32) + c < u.s.ib + i / 32 * 4 ∨
      u.s.ib + i / 32 * 4 + 4 ≤ u.s.db + 4 * (k / 32) + c := by
    intro c hc
    have apart := sound.bitmaps (u.s.db + 4 * (k / 32) + c)
    simp only [Super.InInodeBitmap, Super.InDataBitmap] at apart
    omega
  exact (wordAt_store_other _ _ table).trans (wordAt_store_other _ _ bitmap)

theorem flushData_word {k j : Nat} (hk : k < u.s.nd) (hj : j < u.s.ni) :
    (flushData u k).diskInodeBp (j / 32) = u.diskInodeBp (j / 32) := by
  apply wordAt_store_other
  intro c hc
  have apart := sound.bitmaps (u.s.ib + 4 * (j / 32) + c)
  have base : (flushData u k).s.ib = u.s.ib := rfl
  simp only [Super.InInodeBitmap, Super.InDataBitmap] at apart
  omega

theorem flushData_record {k j : Nat} (hk : k < u.s.nd) (hj : j < u.s.ni) :
    (flushData u k).diskInode j = u.diskInode j := by
  apply Inode.ofBytes_congr
  intro x hx
  have apart := sound.dataBitmap_table (u.s.it + 128 * j + x)
  have base : (flushData u k).s.it = u.s.it := rfl
  simp only [Super.InDataBitmap, Super.InInodeTable] at apart
  exact blit_outside _ _ (by omega)

end Views

theorem flushData_data (u : Ufs) (k j : Nat) :
    (flushData u k).diskDataBp (j / 32) =
      if j / 32 = k / 32 then u.dataBp (j / 32) else u.diskDataBp (j / 32) := by
  by_cases same : j / 32 = k / 32
  · rw [if_pos same, same]
    exact wordAt_store _ _ _ _
  · have base : (flushData u k).s.db = u.s.db := rfl
    rw [if_neg same]
    exact wordAt_store_other _ _ (fun c hc => by omega)

/-- Flushing an inode brings its record and the whole word of its bit up to date. -/
theorem flushInode_tracked {b : Build} {u : Ufs} (sound : u.Sound b) {i : Nat} (hi : i < u.s.ni)
    (tracked : u.Tracked) : (flushInode u i).Tracked where
  inodeBit j hj differs := by
    by_cases same : j / 32 = i / 32
    · have word := flushInode_word sound hi hj
      rw [if_pos same] at word
      exact absurd (getBitmap_congr word) differs
    · have word := flushInode_word sound hi hj
      rw [if_neg same] at word
      have other : j ≠ i := fun h => same (congrArg (· / 32) h)
      have old := tracked.inodeBit j hj (fun agree => differs ((getBitmap_congr word).trans agree))
      simpa [flushInode, other] using old
  inode j hj differs := by
    have record := flushInode_record sound hi hj
    by_cases same : j = i
    · rw [if_pos same] at record
      exact absurd record differs
    · rw [if_neg same] at record
      have old := tracked.inode j hj (fun agree => differs (record.trans agree))
      simpa [flushInode, same] using old
  dataBit k hk differs := by
    have word := flushInode_data sound hi hk
    exact tracked.dataBit k hk (fun agree => differs ((getBitmap_congr word).trans agree))

theorem flushData_tracked {b : Build} {u : Ufs} (sound : u.Sound b) {k : Nat} (hk : k < u.s.nd)
    (tracked : u.Tracked) : (flushData u k).Tracked where
  inodeBit j hj differs := by
    have word := flushData_word sound hk hj
    exact tracked.inodeBit j hj (fun agree => differs ((getBitmap_congr word).trans agree))
  inode j hj differs := by
    have record := flushData_record sound hk hj
    exact tracked.inode j hj (fun agree => differs (record.trans agree))
  dataBit j hj differs := by
    have word := flushData_data u k j
    by_cases same : j / 32 = k / 32
    · rw [if_pos same] at word
      exact absurd (getBitmap_congr word) differs
    · rw [if_neg same] at word
      have other : j ≠ k := fun h => same (congrArg (· / 32) h)
      have old := tracked.dataBit j hj (fun agree => differs ((getBitmap_congr word).trans agree))
      simpa [flushData, other] using old

/-- The state before turn n of the inode loop started in u. -/
structure InodeLoop (u : Ufs) (n : Nat) (v : Ufs) : Prop where
  step : MetaStep u v
  dirtyData : v.dirtyDataBp = u.dirtyDataBp
  clean : ∀ j : Nat, getBitmap v.dirtyInodeBp j = (getBitmap u.dirtyInodeBp j && !decide (j < n))
  tracked : u.Tracked → v.Tracked

theorem inodeLoop_turn {b : Build} {u v : Ufs} (sound : u.Sound b) {n : Nat} (hn : n < u.s.ni)
    (loop : InodeLoop u n v) : ∃ w, commitInode b v n = some w ∧ InodeLoop u (n + 1) w := by
  have hv : n < v.s.ni := by rw [loop.step.s]; exact hn
  have sound := loop.step.sound sound
  cases dirty : getBitmap v.dirtyInodeBp n with
  | false =>
    refine ⟨v, by simp [commitInode, dirty], loop.step, loop.dirtyData, fun j => ?_, loop.tracked⟩
    have before := loop.clean j
    have last := loop.clean n
    by_cases same : j = n
    · subst j
      simp_all
    · have bound : j < n + 1 ↔ j < n := by omega
      simp only [before, bound]
  | true =>
    refine ⟨_, commitInode_dirty sound hv dirty, loop.step.trans (flushInode_meta hv), loop.dirtyData,
      fun j => ?_, fun old => flushInode_tracked sound hv (loop.tracked old)⟩
    have before := loop.clean j
    by_cases same : j = n
    · subst j
      simp [flushInode]
    · have bound : j < n + 1 ↔ j < n := by omega
      simp [flushInode, before, bound, same]

/-- The state before turn n of the data loop started in u. -/
structure DataLoop (u : Ufs) (n : Nat) (v : Ufs) : Prop where
  step : MetaStep u v
  dirtyInodes : v.dirtyInodeBp = u.dirtyInodeBp
  clean : ∀ k : Nat, getBitmap v.dirtyDataBp k = (getBitmap u.dirtyDataBp k && !decide (k < n))
  tracked : u.Tracked → v.Tracked

theorem dataLoop_turn {b : Build} {u v : Ufs} (sound : u.Sound b) {n : Nat} (hn : n < u.s.nd)
    (loop : DataLoop u n v) : ∃ w, commitData b v n = some w ∧ DataLoop u (n + 1) w := by
  have hv : n < v.s.nd := by rw [loop.step.s]; exact hn
  have sound := loop.step.sound sound
  cases dirty : getBitmap v.dirtyDataBp n with
  | false =>
    refine ⟨v, by simp [commitData, dirty], loop.step, loop.dirtyInodes, fun k => ?_, loop.tracked⟩
    have before := loop.clean k
    have last := loop.clean n
    by_cases same : k = n
    · subst k
      simp_all
    · have bound : k < n + 1 ↔ k < n := by omega
      simp only [before, bound]
  | true =>
    refine ⟨_, commitData_dirty sound hv dirty, loop.step.trans (flushData_meta hv), loop.dirtyInodes,
      fun k => ?_, fun old => flushData_tracked sound hv (loop.tracked old)⟩
    have before := loop.clean k
    by_cases same : k = n
    · subst k
      simp [flushData]
    · have bound : k < n + 1 ↔ k < n := by omega
      simp [flushData, before, bound, same]

/-- What a commit does: it returns, changes nothing but the disk's metadata and the
dirty bits, clears those in range, and loses no difference it did not write. -/
structure Committed (u v : Ufs) : Prop where
  step : MetaStep u v
  cleanInodes : ∀ i : Nat, getBitmap v.dirtyInodeBp i = (getBitmap u.dirtyInodeBp i && !decide (i < u.s.ni))
  cleanData : ∀ k : Nat, getBitmap v.dirtyDataBp k = (getBitmap u.dirtyDataBp k && !decide (k < u.s.nd))
  tracked : u.Tracked → v.Tracked

theorem commit_ok {b : Build} {u : Ufs} (sound : u.Sound b) :
    ∃ v, commitDirtyToDisk b u = some v ∧ Committed u v := by
  obtain ⟨v, inodes, hv⟩ := Runs.foldlM_range (InodeLoop u)
    (fun i s hi => inodeLoop_turn sound hi)
    ⟨MetaStep.refl u, rfl, fun j => by simp, fun old => old⟩
  have soundV := hv.step.sound sound
  obtain ⟨w, data, hw⟩ := Runs.foldlM_range (DataLoop v)
    (fun k s hk => dataLoop_turn soundV hk)
    ⟨MetaStep.refl v, rfl, fun k => by simp, fun old => old⟩
  refine ⟨w, by simp only [commitDirtyToDisk, inodes, Option.bind_some, data],
    hv.step.trans hw.step, fun i => ?_, fun k => ?_, fun old => hw.tracked (hv.tracked old)⟩
  · rw [hw.dirtyInodes, hv.clean]
  · rw [hw.clean, hv.dirtyData, hv.step.s]

theorem Committed.synced {u v : Ufs} (done : Committed u v) (tracked : u.Tracked) : v.Synced := by
  apply (done.tracked tracked).synced
  · intro i hi
    rw [done.step.s] at hi
    simp [done.cleanInodes, hi]
  · intro k hk
    rw [done.step.s] at hk
    simp [done.cleanData, hk]

theorem commitOrExit_ok {b : Build} {u : Ufs} (sound : u.Sound b) (message : String) :
    ∃ v, commitOrExit b u message = .ok v ∧ Committed u v := by
  obtain ⟨v, done, committed⟩ := commit_ok sound
  exact ⟨v, by simp only [commitOrExit, done], committed⟩

end Icix
