import Icix.Library.Lifting
import Icix.Fs.Dirty

/-! Two states with one disk and one memory, as far as the code looks: their dirty bitmaps may
differ, and so may what lies behind the ends of their arrays. No call tells them apart. -/
namespace Icix
open Bytes Runs Lifting

/-- The bits that fill up the last words of the bitmaps. The inode bitmap's are on the disk as
in memory, the data bitmap's are clear. -/
structure Ufs.Spare (u : Ufs) : Prop where
  inode : ∀ i : Nat, u.s.ni ≤ i → i / 32 < (u.s.ni + 31) / 32 → getBitmap u.diskInodeBp i = getBitmap u.inodeBp i
  data : ∀ k : Nat, u.s.nd ≤ k → k / 32 < (u.s.nd + 31) / 32 →
    getBitmap u.dataBp k = false ∧ getBitmap u.diskDataBp k = false

/-- What every state of a run keeps by itself. -/
structure Ufs.Kept (b : Build) (u : Ufs) : Prop where
  sound : u.Sound b
  placed : u.Placed
  tracked : u.Tracked
  spare : u.Spare

/-- A step before a commit keeps the spare bits when it sets none. -/
theorem Marked.spare {b : Build} {u v : Ufs} (sound : u.Sound b) (step : Marked u v) (spare : u.Spare)
    (inodes : ∀ i : Nat, u.s.ni ≤ i → getBitmap v.inodeBp i = getBitmap u.inodeBp i)
    (data : ∀ k : Nat, u.s.nd ≤ k → getBitmap u.dataBp k = false → getBitmap v.dataBp k = false) : v.Spare := by
  have bytes : ∀ x, u.s.InMeta x → v.disk.byte x = u.disk.byte x :=
    fun x inMeta => step.outside x (sound.meta_data x inMeta)
  constructor
  · intro i past inside
    rw [step.s] at past inside
    have word : v.diskInodeBp (i / 32) = u.diskInodeBp (i / 32) := by
      unfold Ufs.diskInodeBp
      rw [step.s]
      refine wordAt_congr (fun k hk => bytes _ (Or.inl ?_))
      unfold Super.InInodeBitmap
      omega
    rw [getBitmap_congr word, spare.inode i past inside, inodes i past]
  · intro k past inside
    rw [step.s] at past inside
    have word : v.diskDataBp (k / 32) = u.diskDataBp (k / 32) := by
      unfold Ufs.diskDataBp
      rw [step.s]
      refine wordAt_congr (fun c hc => bytes _ (Or.inr (Or.inl ?_)))
      unfold Super.InDataBitmap
      omega
    obtain ⟨memory, disk⟩ := spare.data k past inside
    exact ⟨data k past memory, (getBitmap_congr word).trans disk⟩

theorem Ufs.Kept.step {b : Build} {u v : Ufs} (kept : u.Kept b) (step : Marked u v) (len : v.disk.len = u.disk.len)
    (placed : v.Placed) (inodes : ∀ i : Nat, u.s.ni ≤ i → getBitmap v.inodeBp i = getBitmap u.inodeBp i)
    (data : ∀ k : Nat, u.s.nd ≤ k → getBitmap u.dataBp k = false → getBitmap v.dataBp k = false) : v.Kept b where
  sound := by
    rw [Ufs.Sound, step.s, len]
    exact kept.sound
  placed := placed
  tracked := step.tracked kept.sound kept.tracked
  spare := step.spare kept.sound kept.spare inodes data

section Commit

variable {b : Build} {u : Ufs} (sound : u.Sound b)
include sound

/- An index of a word in range stands for a bit in range: the word's first. -/
theorem flushInode_spare {i : Nat} (hi : i < u.s.ni) (spare : u.Spare) : (flushInode u i).Spare := by
  constructor
  · intro j past inside
    have word := flushInode_word (j := 32 * (j / 32)) sound hi (by change j / 32 < (u.s.ni + 31) / 32 at inside; omega)
    rw [Nat.mul_div_cancel_left _ (Nat.succ_pos 31)] at word
    split at word
    · exact getBitmap_congr word
    · exact (getBitmap_congr word).trans (spare.inode j past inside)
  · intro k past inside
    have word := flushInode_data (k := 32 * (k / 32)) sound hi (by change k / 32 < (u.s.nd + 31) / 32 at inside; omega)
    rw [Nat.mul_div_cancel_left _ (Nat.succ_pos 31)] at word
    exact ⟨(spare.data k past inside).1, (getBitmap_congr word).trans (spare.data k past inside).2⟩

theorem flushData_spare {k : Nat} (hk : k < u.s.nd) (spare : u.Spare) : (flushData u k).Spare := by
  constructor
  · intro j past inside
    have word := flushData_word (j := 32 * (j / 32)) sound hk (by change j / 32 < (u.s.ni + 31) / 32 at inside; omega)
    rw [Nat.mul_div_cancel_left _ (Nat.succ_pos 31)] at word
    exact (getBitmap_congr word).trans (spare.inode j past inside)
  · intro j past inside
    have word := flushData_data u k j
    obtain ⟨memory, disk⟩ := spare.data j past inside
    refine ⟨memory, ?_⟩
    split at word
    · exact (getBitmap_congr word).trans memory
    · exact (getBitmap_congr word).trans disk

theorem commit_spare (spare : u.Spare) : ∃ v, commitDirtyToDisk b u = some v ∧ Committed u v ∧ v.Spare := by
  obtain ⟨v, inodes, loopV, spareV⟩ := foldlM_range (fun n v => InodeLoop u n v ∧ v.Spare)
    (fun i s hi loop => by
      obtain ⟨t, turn, next⟩ := inodeLoop_turn sound hi loop.1
      refine ⟨t, turn, next, ?_⟩
      have hs : i < s.s.ni := by rw [loop.1.step.s]; exact hi
      cases dirty : getBitmap s.dirtyInodeBp i with
      | false =>
        simp only [commitInode, dirty, Bool.false_eq_true, if_false, Option.some.injEq] at turn
        exact turn ▸ loop.2
      | true =>
        rw [commitInode_dirty (loop.1.step.sound sound) hs dirty] at turn
        cases Option.some.inj turn
        exact flushInode_spare (loop.1.step.sound sound) hs loop.2)
    ⟨⟨MetaStep.refl u, rfl, fun j => by simp, fun old => old⟩, spare⟩
  have soundV := loopV.step.sound sound
  obtain ⟨w, data, loopW, spareW⟩ := foldlM_range (fun n w => DataLoop v n w ∧ w.Spare)
    (fun k s hk loop => by
      obtain ⟨t, turn, next⟩ := dataLoop_turn soundV hk loop.1
      refine ⟨t, turn, next, ?_⟩
      have hs : k < s.s.nd := by rw [loop.1.step.s]; exact hk
      cases dirty : getBitmap s.dirtyDataBp k with
      | false =>
        simp only [commitData, dirty, Bool.false_eq_true, if_false, Option.some.injEq] at turn
        exact turn ▸ loop.2
      | true =>
        rw [commitData_dirty (loop.1.step.sound soundV) hs dirty] at turn
        cases Option.some.inj turn
        exact flushData_spare (loop.1.step.sound soundV) hs loop.2)
    ⟨⟨MetaStep.refl v, rfl, fun k => by simp, fun old => old⟩, spareV⟩
  have done : commitDirtyToDisk b u = some w := by
    simp only [commitDirtyToDisk, inodes, Option.bind_some, data]
  obtain ⟨w', done', committed⟩ := commit_ok sound
  cases Option.some.inj (done.symm.trans done')
  exact ⟨w, done, committed, spareW⟩

end Commit

/- Words with the same bits, and records with the same bytes. -/
theorem word_of_bits {a c : Bitmap} {w : Nat} (bits : ∀ i : Nat, i / 32 = w → getBitmap a i = getBitmap c i) :
    a w = c w := by
  apply BitVec.eq_of_getLsbD_eq
  intro p hp
  have index : bitmapWord ((32 * w + (31 - p) : Nat) : Int) = w := by
    change (32 * w + (31 - p)) / 32 = w
    omega
  have shift : bitmapShift ((32 * w + (31 - p) : Nat) : Int) = p := by
    unfold bitmapShift
    omega
  have bit := bits (32 * w + (31 - p)) (by omega)
  rwa [getBitmap, getBitmap, index, shift, WordBits.testBit_eq_getLsbD _ _ hp, WordBits.testBit_eq_getLsbD _ _ hp] at bit

theorem Inode.ofBytes_inj {m n : Nat → Byte} : Inode.ofBytes m = Inode.ofBytes n ↔ ∀ x < 128, m x = n x := by
  refine ⟨fun same x hx => ?_, Inode.ofBytes_congr⟩
  have words : ∀ i < 32, wordAt m i = wordAt n i
    | 0, _ => congrArg Inode.type same
    | 1, _ => congrArg Inode.size same
    | a + 2, ha => congrFun (congrArg Inode.direct same) ⟨a, Nat.lt_of_add_lt_add_right ha⟩
  have byte := wordAt_inj.mp (words (x / 4) (by omega)) (x % 4) (by omega)
  rwa [Nat.div_add_mod] at byte

section Synced

variable {u : Ufs} (synced : u.Synced) (spare : u.Spare)
include synced spare

theorem Ufs.Synced.inodeWord {w : Nat} (inside : w < (u.s.ni + 31) / 32) : u.diskInodeBp w = u.inodeBp w := by
  refine word_of_bits (fun i same => ?_)
  by_cases hi : i < u.s.ni
  · exact synced.inodeBit i hi
  · exact spare.inode i (Nat.le_of_not_lt hi) (same ▸ inside)

theorem Ufs.Synced.dataWord {w : Nat} (inside : w < (u.s.nd + 31) / 32) : u.diskDataBp w = u.dataBp w := by
  refine word_of_bits (fun k same => ?_)
  by_cases hk : k < u.s.nd
  · exact synced.dataBit k hk
  · obtain ⟨memory, disk⟩ := spare.data k (Nat.le_of_not_lt hk) (same ▸ inside)
    exact disk.trans memory.symm

end Synced

/-- The same memory in the ranges that the code uses. -/
structure Agree (u v : Ufs) : Prop where
  s : v.s = u.s
  inodeWord : ∀ w < (u.s.ni + 31) / 32, v.inodeBp w = u.inodeBp w
  dataWord : ∀ w < (u.s.nd + 31) / 32, v.dataBp w = u.dataBp w
  inode : ∀ i < u.s.ni, v.inodes i = u.inodes i

/-- States whose disks hold what they hold in memory agree on the metadata of their disks. -/
theorem Agree.metadata {u v : Ufs} (agree : Agree u v) (syncedU : u.Synced) (spareU : u.Spare) (syncedV : v.Synced)
    (spareV : v.Spare) {x : Nat} (inside : u.s.InMeta x) : v.disk.byte x = u.disk.byte x := by
  rcases inside with ⟨low, high⟩ | ⟨low, high⟩ | ⟨low, high⟩
  · have within : (x - u.s.ib) / 4 < (u.s.ni + 31) / 32 := by omega
    have words := (syncedV.inodeWord spareV (agree.s ▸ within)).trans
      ((agree.inodeWord _ within).trans (syncedU.inodeWord spareU within).symm)
    have byte := wordAt_inj.mp words ((x - u.s.ib) % 4) (by omega)
    rw [agree.s, view_apply, view_apply, Nat.div_add_mod, Nat.add_sub_cancel' low] at byte
    exact byte
  · have within : (x - u.s.db) / 4 < (u.s.nd + 31) / 32 := by omega
    have words := (syncedV.dataWord spareV (agree.s ▸ within)).trans
      ((agree.dataWord _ within).trans (syncedU.dataWord spareU within).symm)
    have byte := wordAt_inj.mp words ((x - u.s.db) % 4) (by omega)
    rw [agree.s, view_apply, view_apply, Nat.div_add_mod, Nat.add_sub_cancel' low] at byte
    exact byte
  · have within : (x - u.s.it) / 128 < u.s.ni := by omega
    have records := (syncedV.inode _ (agree.s ▸ within)).trans
      ((agree.inode _ within).trans (syncedU.inode _ within).symm)
    have byte := Inode.ofBytes_inj.mp records ((x - u.s.it) % 128) (by omega)
    rw [agree.s, view_apply, view_apply, Nat.add_assoc, Nat.div_add_mod, Nat.add_sub_cancel' low] at byte
    exact byte

theorem disk_ext {d e : Disk} (len : d.len = e.len) (byte : ∀ x, d.byte x = e.byte x) : d = e := by
  cases d
  cases e
  cases len
  cases funext byte
  rfl

structure Twin (b : Build) (u v : Ufs) : Prop extends Agree u v where
  left : u.Kept b
  right : v.Kept b
  disk : v.disk = u.disk

/-- Both commits succeed, and leave the same bytes. -/
theorem Twin.commit {b : Build} {u v : Ufs} (twin : Twin b u v) : ∃ w x, commitDirtyToDisk b u = some w ∧
    commitDirtyToDisk b v = some x ∧ Twin b w x := by
  obtain ⟨w, doneU, commitU, spareU⟩ := commit_spare twin.left.sound twin.left.spare
  obtain ⟨x, doneV, commitV, spareV⟩ := commit_spare twin.right.sound twin.right.spare
  have syncedU := commitU.synced twin.left.tracked
  have syncedV := commitV.synced twin.right.tracked
  have agree : Agree w x := by
    refine ⟨commitV.step.s.trans (twin.s.trans commitU.step.s.symm), fun i hi => ?_, fun k hk => ?_, fun i hi => ?_⟩
    · rw [commitU.step.s] at hi
      rw [commitV.step.inodeBp, commitU.step.inodeBp, twin.inodeWord i hi]
    · rw [commitU.step.s] at hk
      rw [commitV.step.dataBp, commitU.step.dataBp, twin.dataWord k hk]
    · rw [commitU.step.s] at hi
      rw [commitV.step.inodes, commitU.step.inodes, twin.inode i hi]
  refine ⟨w, x, doneU, doneV, agree, ⟨commitU.step.sound twin.left.sound, ?_, commitU.tracked twin.left.tracked, spareU⟩,
    ⟨commitV.step.sound twin.right.sound, ?_, commitV.tracked twin.right.tracked, spareV⟩, ?_⟩
  · exact (commitU.step.allocates (t := True)).placed twin.left.placed
  · exact (commitV.step.allocates (t := True)).placed twin.right.placed
  · refine disk_ext (commitV.step.len.trans ((congrArg Disk.len twin.disk).trans commitU.step.len.symm)) (fun y => ?_)
    by_cases inMeta : w.s.InMeta y
    · exact agree.metadata syncedU spareU syncedV spareV inMeta
    · rw [commitU.step.s] at inMeta
      rw [commitV.step.outside y (twin.s ▸ inMeta), commitU.step.outside y inMeta, twin.disk]

theorem Twin.commitOrExit {b : Build} {u v : Ufs} (twin : Twin b u v) (message : String) :
    Lifts (Twin b) (commitOrExit b u message) (commitOrExit b v message) := by
  obtain ⟨w, x, doneU, doneV, next⟩ := twin.commit
  simp only [Icix.commitOrExit, doneU, doneV]
  exact .ok next

/-- Inode i is marked dirty in both states. -/
def Touched (i : Nat) (u v : Ufs) : Prop :=
  getBitmap u.dirtyInodeBp i = true ∧ getBitmap v.dirtyInodeBp i = true

/- The pointers of an inode are in the data region. -/
def Inode.Placed (s : Super) (n : Inode) : Prop :=
  ∀ a, n.ptr a ≠ -1 → s.dr ≤ (n.ptr a).toNat ∧ (n.ptr a).toNat < s.dr + s.nd

theorem setBitmap_word {a c : Bitmap} {n : Nat} (same : ∀ w < n, a w = c w) (i : Int) {w : Nat} (hw : w < n) :
    setBitmap a i w = setBitmap c i w := by
  unfold setBitmap WordBits.setBit
  by_cases hit : w = bitmapWord i
  · rw [hit, Function.update_self, Function.update_self, same _ (hit ▸ hw)]
  · rw [Function.update_of_ne hit, Function.update_of_ne hit, same w hw]

theorem resetBitmap_word {a c : Bitmap} {n : Nat} (same : ∀ w < n, a w = c w) (i : Int) {w : Nat} (hw : w < n) :
    resetBitmap a i w = resetBitmap c i w := by
  unfold resetBitmap WordBits.clearBit
  by_cases hit : w = bitmapWord i
  · rw [hit, Function.update_self, Function.update_self, same _ (hit ▸ hw)]
  · rw [Function.update_of_ne hit, Function.update_of_ne hit, same w hw]

theorem ni_of_range {s : Super} {i : Int} (low : 0 ≤ i) (high : i < s.numInodes.toInt) :
    i.toNat < s.ni ∧ ((i.toNat : Nat) : Int) = i := by
  unfold Super.ni
  omega

theorem newBlock_placed {b : Build} {u : Ufs} (sound : u.Sound b) {k a : Nat} (hk : k < u.s.nd) (ha : a < 30)
    {n : Inode} (placed : n.Placed u.s) : (n.setPtr a (u.newBlock k)).Placed u.s := by
  have value := newBlock_toNat sound hk
  intro c real
  rw [Inode.ptr_setPtr _ ha] at real ⊢
  split
  · omega
  · rename_i other
    rw [if_neg other] at real
    exact placed c real

namespace Agree

variable {u v : Ufs} (agree : Agree u v)
include agree

theorem allocated (i : Nat) : v.allocated i ↔ u.allocated i := by
  unfold Ufs.allocated
  rw [agree.s]
  refine and_congr_right fun hi => ?_
  rw [getBitmap_congr (agree.inodeWord (i / 32) (by omega))]

theorem placed (placed : u.Placed) : v.Placed := by
  intro i a live real
  have liveU := (agree.allocated i).mp live
  rw [agree.inode i liveU.1] at real ⊢
  rw [agree.s]
  exact placed i a liveU real

end Agree

namespace Twin

variable {b : Build} {u v : Ufs} (twin : Twin b u v)
include twin

theorem inodeBit {i : Int} (low : 0 ≤ i) (high : i < u.s.numInodes.toInt) :
    getBitmap v.inodeBp i = getBitmap u.inodeBp i := by
  obtain ⟨inside, index⟩ := ni_of_range low high
  rw [← index]
  exact getBitmap_congr (twin.inodeWord _ (by omega))

theorem dataBit {k : Nat} (hk : k < u.s.nd) : getBitmap v.dataBp k = getBitmap u.dataBp k :=
  getBitmap_congr (twin.dataWord _ (by omega))

/-- A step that both states take. -/
theorem step {u' v' : Ufs} (agree : Agree u' v') (markU : Marked u u') (markV : Marked v v') (disk : v'.disk = u'.disk)
    (len : u'.disk.len = u.disk.len) (placed : u'.Placed)
    (inodes : ∀ i : Nat, u.s.ni ≤ i → getBitmap u'.inodeBp i = getBitmap u.inodeBp i ∧
      getBitmap v'.inodeBp i = getBitmap v.inodeBp i)
    (data : ∀ k : Nat, u.s.nd ≤ k → (getBitmap u.dataBp k = false → getBitmap u'.dataBp k = false) ∧
      (getBitmap v.dataBp k = false → getBitmap v'.dataBp k = false)) : Twin b u' v' where
  toAgree := agree
  left := twin.left.step markU len placed (fun i hi => (inodes i hi).1) (fun k hk => (data k hk).1)
  right := twin.right.step markV ((congrArg Disk.len disk).trans (len.trans (congrArg Disk.len twin.disk).symm))
    (agree.placed placed) (fun i hi => (inodes i (twin.s ▸ hi)).2) (fun k hk => (data k (twin.s ▸ hk)).2)
  disk := disk

theorem setInode {i : Nat} (touched : Touched i u v) {n : Inode} (placed : n.Placed u.s) :
    Twin b (u.setInode i n) (v.setInode i n) := by
  refine twin.step ⟨twin.s, twin.inodeWord, twin.dataWord, fun j hj => ?_⟩ (.setInode u touched.1 n)
    (.setInode v touched.2 n) twin.disk rfl (fun j a live real => ?_) (fun _ _ => ⟨rfl, rfl⟩) (fun _ _ => ⟨id, id⟩)
  · change Function.update v.inodes i n j = Function.update u.inodes i n j
    by_cases same : j = i
    · rw [same, Function.update_self, Function.update_self]
    · rw [Function.update_of_ne same, Function.update_of_ne same, twin.inode j hj]
  · by_cases same : j = i
    · have inode : (u.setInode i n).inodes j = n := same ▸ Function.update_self ..
      rw [inode] at real ⊢
      exact placed a real
    · have inode : (u.setInode i n).inodes j = u.inodes j := Function.update_of_ne same _ _
      rw [inode] at real ⊢
      exact twin.left.placed j a live real

theorem putBytes {a n : Nat} (inside : ∀ k < n, u.s.InData (a + k)) (src : Nat → Byte) :
    Twin b (u.putBytes a n src) (v.putBytes a n src) := by
  refine twin.step ⟨twin.s, twin.inodeWord, twin.dataWord, twin.inode⟩ (.putBytes inside src)
    (.putBytes (twin.s ▸ inside) src) ?_ rfl twin.left.placed (fun _ _ => ⟨rfl, rfl⟩) (fun _ _ => ⟨id, id⟩)
  simp only [Ufs.putBytes, twin.disk]

theorem markData {k : Nat} (hk : k < u.s.nd) : Twin b (markData u k) (markData v k) := by
  have clear : ∀ m : Bitmap, ∀ j : Nat, u.s.nd ≤ j → getBitmap m j = false → getBitmap (setBitmap m k) j = false := by
    intro m j past clear
    have other : j ≠ k := by omega
    simp [clear, other]
  refine twin.step ⟨twin.s, twin.inodeWord, fun w hw => setBitmap_word twin.dataWord k hw, twin.inode⟩
    (.markData u k) (.markData v k) twin.disk rfl twin.left.placed (fun _ _ => ⟨rfl, rfl⟩)
    (fun j past => ⟨clear _ j past, clear _ j past⟩)

theorem markDirty (i : Nat) : Twin b (markDirty u i) (markDirty v i) :=
  twin.step ⟨twin.s, twin.inodeWord, twin.dataWord, twin.inode⟩ (.markDirty u i) (.markDirty v i) twin.disk rfl
    twin.left.placed (fun _ _ => ⟨rfl, rfl⟩) (fun _ _ => ⟨id, id⟩)

theorem claimInode {i : Nat} (hi : i < u.s.ni) (clear : getBitmap u.inodeBp i = false) (type : Word) :
    Twin b (claimInode u i type) (claimInode v i type) := by
  have spare : ∀ m : Bitmap, ∀ j : Nat, u.s.ni ≤ j → getBitmap (setBitmap m i) j = getBitmap m j := by
    intro m j past
    have other : j ≠ i := by omega
    simp [other]
  refine twin.step ⟨twin.s, fun w hw => setBitmap_word twin.inodeWord i hw, twin.dataWord, fun j hj => ?_⟩
    (.claimInode u i type) (.claimInode v i type) twin.disk rfl
    ((claimInode_allocates (t := True) clear type).placed twin.left.placed)
    (fun j past => ⟨spare _ j past, spare _ j past⟩) (fun _ _ => ⟨id, id⟩)
  unfold Icix.claimInode
  by_cases same : j = i
  · simp only [same, Function.update_self, twin.inode i hi]
  · simp only [Function.update_of_ne same, twin.inode j hj]

theorem released (p : Word) : Twin b (released u p) (released v p) := by
  have clear : ∀ m : Bitmap, ∀ j : Nat, getBitmap m j = false → getBitmap (resetBitmap m p.toInt) j = false := by
    intro m j clear
    rw [get_reset, clear, Bool.and_false]
  exact twin.step ⟨twin.s, twin.inodeWord, fun w hw => resetBitmap_word twin.dataWord _ hw, twin.inode⟩
    (.released u p) (.released v p) twin.disk rfl twin.left.placed (fun _ _ => ⟨rfl, rfl⟩)
    (fun j _ => ⟨clear _ j, clear _ j⟩)

theorem unmarked (pinum : Nat) {inum : Nat} (hi : inum < u.s.ni) :
    Twin b (unmarked u pinum inum) (unmarked v pinum inum) := by
  have spare : ∀ m : Bitmap, ∀ j : Nat, u.s.ni ≤ j → getBitmap (resetBitmap m inum) j = getBitmap m j := by
    intro m j past
    have other : j ≠ inum := by omega
    simp [other]
  refine twin.step ⟨twin.s, fun w hw => resetBitmap_word twin.inodeWord _ hw, twin.dataWord, twin.inode⟩
    (unmarked_marked u pinum inum) (unmarked_marked v pinum inum) twin.disk rfl (fun j a live real => ?_)
    (fun j past => ⟨spare _ j past, spare _ j past⟩) (fun _ _ => ⟨id, id⟩)
  have bit := live.2
  simp only [Icix.unmarked, get_reset_nat, Bool.and_eq_true] at bit
  exact twin.left.placed j a ⟨live.1, bit.2⟩ real

end Twin

end Icix
