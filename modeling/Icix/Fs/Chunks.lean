import Icix.Library.Overlay
import Icix.Fs.Bounds

/-! One write against two of its parts. The second of them finds what the first has
committed, so the two runs are compared by their memories and by what the disk will have
once all that is dirty has been written to it. -/
namespace Icix
open Bytes Ownership Runs

/- What a commit will write: records, and words of the two bitmaps. -/
def Ufs.staleInode (u : Ufs) (j : Nat) : Prop := j < u.s.ni ∧ getBitmap u.dirtyInodeBp j = true
def Ufs.staleInodeWord (u : Ufs) (w : Nat) : Prop := ∃ j, j / 32 = w ∧ u.staleInode j
def Ufs.staleDataWord (u : Ufs) (w : Nat) : Prop :=
  ∃ k, k / 32 = w ∧ k < u.s.nd ∧ getBitmap u.dirtyDataBp k = true

/- The disk's bytes after a commit, one region of the metadata at a time. -/
noncomputable def Ufs.afterData (u : Ufs) : Nat → Byte :=
  overlay u.s.db 4 u.staleDataWord (fun w => wordByte (u.dataBp w)) u.disk.byte

noncomputable def Ufs.afterInodes (u : Ufs) : Nat → Byte :=
  overlay u.s.it 128 u.staleInode (fun j => (u.inodes j).bytes) u.afterData

/-- The disk's bytes as a commit would leave them. -/
noncomputable def Ufs.after (u : Ufs) : Nat → Byte :=
  overlay u.s.ib 4 u.staleInodeWord (fun w => wordByte (u.inodeBp w)) u.afterInodes

/-- A byte of a region lies before or behind every range outside it. -/
theorem outside_range {P : Nat → Prop} {a n x : Nat} (range : ∀ k < n, ¬ P (a + k)) (inside : P x) :
    x < a ∨ a + n ≤ x := by
  by_contra hit
  have out := range (x - a) (by omega)
  have addr : a + (x - a) = x := by omega
  exact out (addr.symm ▸ inside)

section Stale

variable {u : Ufs}

theorem Ufs.staleInodeWord.inside {w k : Nat} (stale : u.staleInodeWord w) (hk : k < 4) :
    u.s.InInodeBitmap (u.s.ib + w * 4 + k) := by
  obtain ⟨j, rfl, hj, _⟩ := stale
  unfold Super.InInodeBitmap
  omega

theorem Ufs.staleInode.inside {j k : Nat} (stale : u.staleInode j) (hk : k < 128) :
    u.s.InInodeTable (u.s.it + j * 128 + k) := by
  have hj := stale.1
  unfold Super.InInodeTable
  omega

theorem Ufs.staleDataWord.inside {w k : Nat} (stale : u.staleDataWord w) (hk : k < 4) :
    u.s.InDataBitmap (u.s.db + w * 4 + k) := by
  obtain ⟨j, rfl, hj, _⟩ := stale
  unfold Super.InDataBitmap
  omega

end Stale

/- A range outside one region may be written before or after what is stale in it. -/
section Push

variable {u : Ufs} {a n : Nat} {item : Nat → Nat → Byte} (m src : Nat → Byte)

theorem push_data (out : ∀ k < n, ¬ u.s.InDataBitmap (a + k)) :
    overlay u.s.db 4 u.staleDataWord item (blit m a n src) = blit (overlay u.s.db 4 u.staleDataWord item m) a n src :=
  overlay_blit (by decide) fun _ _ stale hk => outside_range out (stale.inside hk)

theorem push_inodes (out : ∀ k < n, ¬ u.s.InInodeTable (a + k)) :
    overlay u.s.it 128 u.staleInode item (blit m a n src) = blit (overlay u.s.it 128 u.staleInode item m) a n src :=
  overlay_blit (by decide) fun _ _ stale hk => outside_range out (stale.inside hk)

theorem push_words (out : ∀ k < n, ¬ u.s.InInodeBitmap (a + k)) :
    overlay u.s.ib 4 u.staleInodeWord item (blit m a n src) =
      blit (overlay u.s.ib 4 u.staleInodeWord item m) a n src :=
  overlay_blit (by decide) fun _ _ stale hk => outside_range out (stale.inside hk)

end Push

/- What the steps before a commit do to the bytes that it leaves. -/
section Steps

variable {b : Build} {u : Ufs} (sound : u.Sound b)
include sound

theorem after_putBytes {a n : Nat} (inside : ∀ k < n, u.s.InData (a + k)) (src : Nat → Byte) :
    (u.putBytes a n src).after = blit u.after a n src := by
  have apart : ∀ k < n, ¬ u.s.InMeta (a + k) := fun k hk inMeta => sound.meta_data _ inMeta (inside k hk)
  have data : (u.putBytes a n src).afterData = blit u.afterData a n src :=
    push_data _ _ fun k hk hit => apart k hk (Or.inr (Or.inl hit))
  have inodes : (u.putBytes a n src).afterInodes = blit u.afterInodes a n src :=
    (congrArg _ data).trans (push_inodes _ _ fun k hk hit => apart k hk (Or.inr (Or.inr hit)))
  exact (congrArg _ inodes).trans (push_words _ _ fun k hk hit => apart k hk (Or.inl hit))

theorem record_outside {i k : Nat} (hi : i < u.s.ni) (hk : k < 128) : ¬ u.s.InInodeBitmap (u.s.it + i * 128 + k) := by
  intro hit
  refine sound.inodeBitmap_table _ hit ?_
  unfold Super.InInodeTable
  omega

theorem after_setInode {i : Nat} (stale : u.staleInode i) (n : Inode) :
    (u.setInode i n).after = blit u.after (u.s.it + i * 128) 128 n.bytes := by
  have record : (u.setInode i n).inodes i = n := Function.update_self ..
  have inodes : (u.setInode i n).afterInodes = blit u.afterInodes (u.s.it + i * 128) 128 n.bytes := by
    have added : overlay u.s.it 128 u.staleInode (fun j => ((u.setInode i n).inodes j).bytes) u.afterData =
        blit u.afterInodes (u.s.it + i * 128) 128 ((u.setInode i n).inodes i).bytes :=
      overlay_add (by decide) (fun j => ⟨Or.inr, fun either => either.elim (fun same => same ▸ stale) id⟩)
        (fun j other => congrArg Inode.bytes (Function.update_of_ne other _ _))
    rw [record] at added
    exact added
  exact (congrArg _ inodes).trans (push_words _ _ fun k hk => record_outside sound stale.1 hk)

theorem after_markData {k : Nat} (hk : k < u.s.nd) :
    (markData u k).after =
      blit u.after (u.s.db + k / 32 * 4) 4 (wordByte ((setBitmap u.dataBp k) (k / 32))) := by
  have data : (markData u k).afterData =
      blit u.afterData (u.s.db + k / 32 * 4) 4 (wordByte ((setBitmap u.dataBp k) (k / 32))) := by
    refine overlay_add (by decide) (fun w => ?_) (fun w other => ?_)
    · constructor
      · rintro ⟨j, rfl, hj, bit⟩
        rw [markData, get_set_nat, Bool.or_eq_true, decide_eq_true_eq] at bit
        rcases bit with rfl | old
        · exact Or.inl rfl
        · exact Or.inr ⟨j, rfl, hj, old⟩
      · rintro (rfl | ⟨j, rfl, hj, old⟩)
        · exact ⟨k, rfl, hk, get_set_self u.dirtyDataBp k⟩
        · exact ⟨j, rfl, hj, by rw [markData, get_set_nat, old, Bool.or_true]⟩
    · exact congrArg wordByte (Function.update_of_ne other _ _)
  have word : ∀ c < 4, u.s.InDataBitmap (u.s.db + k / 32 * 4 + c) := by
    intro c hc
    unfold Super.InDataBitmap
    omega
  have inodes : (markData u k).afterInodes =
      blit u.afterInodes (u.s.db + k / 32 * 4) 4 (wordByte ((setBitmap u.dataBp k) (k / 32))) :=
    (congrArg _ data).trans (push_inodes _ _ fun c hc => sound.dataBitmap_table _ (word c hc))
  exact (congrArg _ inodes).trans (push_words _ _ fun c hc hit => sound.bitmaps _ hit (word c hc))

theorem after_markDirty {i : Nat} (hi : i < u.s.ni) :
    (markDirty u i).after =
      blit (blit u.after (u.s.ib + i / 32 * 4) 4 (wordByte (u.inodeBp (i / 32))))
        (u.s.it + i * 128) 128 (u.inodes i).bytes := by
  have grows : ∀ j, (markDirty u i).staleInode j ↔ j = i ∨ u.staleInode j := by
    intro j
    unfold Ufs.staleInode
    rw [markDirty, get_set_nat, Bool.or_eq_true, decide_eq_true_eq]
    constructor
    · rintro ⟨hj, rfl | bit⟩
      · exact Or.inl rfl
      · exact Or.inr ⟨hj, bit⟩
    · rintro (rfl | ⟨hj, bit⟩)
      · exact ⟨hi, Or.inl rfl⟩
      · exact ⟨hj, Or.inr bit⟩
  have words : ∀ w, (markDirty u i).staleInodeWord w ↔ w = i / 32 ∨ u.staleInodeWord w := by
    intro w
    constructor
    · rintro ⟨j, rfl, stale⟩
      rcases (grows j).mp stale with rfl | old
      · exact Or.inl rfl
      · exact Or.inr ⟨j, rfl, old⟩
    · rintro (rfl | ⟨j, rfl, old⟩)
      · exact ⟨i, rfl, (grows i).mpr (Or.inl rfl)⟩
      · exact ⟨j, rfl, (grows j).mpr (Or.inr old)⟩
  have inodes : (markDirty u i).afterInodes = blit u.afterInodes (u.s.it + i * 128) 128 (u.inodes i).bytes :=
    overlay_add (by decide) grows (fun _ _ => rfl)
  have bitmap : overlay u.s.ib 4 (markDirty u i).staleInodeWord (fun w => wordByte (u.inodeBp w)) u.afterInodes =
      blit u.after (u.s.ib + i / 32 * 4) 4 (wordByte (u.inodeBp (i / 32))) :=
    overlay_add (by decide) words (fun _ _ => rfl)
  have pushed : overlay u.s.ib 4 (markDirty u i).staleInodeWord (fun w => wordByte (u.inodeBp w))
      (blit u.afterInodes (u.s.it + i * 128) 128 (u.inodes i).bytes) = blit _ _ 128 (u.inodes i).bytes :=
    push_words (u := markDirty u i) u.afterInodes (u.inodes i).bytes (fun k hk => record_outside sound hi hk)
  exact (congrArg _ inodes).trans (pushed.trans (congrArg (blit · _ _ _) bitmap))

omit sound in
/-- An inode that is dirty already is written all the same. -/
theorem after_marked {i : Nat} (stale : u.staleInode i) : (markDirty u i).after = u.after := by
  have same : (markDirty u i).staleInode = u.staleInode := by
    funext j
    unfold Ufs.staleInode
    rw [markDirty, get_set_nat, Bool.or_eq_true, decide_eq_true_eq]
    refine propext ⟨fun h => ⟨h.1, h.2.elim (fun this => this ▸ stale.2) id⟩, fun h => ⟨h.1, Or.inr h.2⟩⟩
  have words : (markDirty u i).staleInodeWord = u.staleInodeWord := by
    unfold Ufs.staleInodeWord
    rw [same]
  unfold Ufs.after Ufs.afterInodes
  rw [words, same]
  rfl

end Steps

/-- One turn of the first loop changes nothing of what is on the disk after the commit. -/
theorem flushInode_after {b : Build} {u : Ufs} (sound : u.Sound b) {i : Nat} (stale : u.staleInode i) :
    (flushInode u i).after = u.after := by
  have hi := stale.1
  have others : ∀ j, (flushInode u i).staleInode j ↔ j ≠ i ∧ u.staleInode j := by
    intro j
    unfold Ufs.staleInode
    rw [flushInode, get_reset_nat, Bool.and_eq_true, Bool.not_eq_true', decide_eq_false_iff_not]
    exact ⟨fun h => ⟨h.2.1, h.1, h.2.2⟩, fun h => ⟨h.2.1, h.1, h.2.2⟩⟩
  have word : ∀ c < 4, u.s.InInodeBitmap (u.s.ib + i / 32 * 4 + c) := by
    intro c hc
    unfold Super.InInodeBitmap
    omega
  have record : ∀ c < 128, u.s.InInodeTable (u.s.it + i * 128 + c) := fun c hc => stale.inside hc
  have data : (flushInode u i).afterData =
      blit (blit u.afterData (u.s.ib + i / 32 * 4) 4 (wordByte (u.inodeBp (i / 32))))
        (u.s.it + i * 128) 128 (u.inodes i).bytes :=
    (push_data _ _ fun c hc hit => sound.dataBitmap_table _ hit (record c hc)).trans
      (congrArg (blit · _ _ _) (push_data _ _ fun c hc hit => sound.bitmaps _ (word c hc) hit))
  have inodes : (flushInode u i).afterInodes =
      blit u.afterInodes (u.s.ib + i / 32 * 4) 4 (wordByte (u.inodeBp (i / 32))) := by
    have flushed : overlay u.s.it 128 (flushInode u i).staleInode (fun j => (u.inodes j).bytes)
        (blit (blit u.afterData (u.s.ib + i / 32 * 4) 4 (wordByte (u.inodeBp (i / 32)))) (u.s.it + i * 128) 128
          (u.inodes i).bytes) = _ :=
      overlay_flush (by decide) stale (fun j other => (others j).trans (and_iff_right other))
    exact (congrArg _ data).trans (flushed.trans (push_inodes _ _ fun c hc => sound.inodeBitmap_table _ (word c hc)))
  have words : overlay u.s.ib 4 (flushInode u i).staleInodeWord (fun w => wordByte (u.inodeBp w))
      (blit u.afterInodes (u.s.ib + i / 32 * 4) 4 (wordByte (u.inodeBp (i / 32)))) = u.after := by
    refine overlay_flush (by decide) ⟨i, rfl, stale⟩ (fun w other => ?_)
    constructor
    · rintro ⟨j, rfl, still⟩
      exact ⟨j, rfl, ((others j).mp still).2⟩
    · rintro ⟨j, rfl, old⟩
      exact ⟨j, rfl, (others j).mpr ⟨fun same => other (congrArg (· / 32) same), old⟩⟩
  exact (congrArg _ inodes).trans words

theorem flushData_after {u : Ufs} {k : Nat} (hk : k < u.s.nd) (dirty : getBitmap u.dirtyDataBp k = true) :
    (flushData u k).after = u.after := by
  have data : (flushData u k).afterData = u.afterData := by
    refine overlay_flush (by decide) ⟨k, rfl, hk, dirty⟩ (fun w other => ?_)
    constructor
    · rintro ⟨j, rfl, hj, bit⟩
      rw [flushData, get_reset_nat, Bool.and_eq_true] at bit
      exact ⟨j, rfl, hj, bit.2⟩
    · rintro ⟨j, rfl, hj, bit⟩
      have this : j ≠ k := fun same => other (congrArg (· / 32) same)
      refine ⟨j, rfl, hj, ?_⟩
      rw [flushData, get_reset_nat, bit, decide_eq_false this]
      rfl
  unfold Ufs.after Ufs.afterInodes
  rw [data]
  rfl

/-- With nothing dirty in range, the disk is what it would be after a commit. -/
theorem after_clean {u : Ufs} (cleanInodes : ∀ j : Nat, j < u.s.ni → getBitmap u.dirtyInodeBp j = false)
    (cleanData : ∀ k : Nat, k < u.s.nd → getBitmap u.dirtyDataBp k = false) : u.after = u.disk.byte := by
  have inodes : ∀ j, ¬ u.staleInode j := by
    rintro j ⟨hj, bit⟩
    rw [cleanInodes j hj] at bit
    cases bit
  have data : ∀ w, ¬ u.staleDataWord w := by
    rintro w ⟨k, rfl, hk, bit⟩
    rw [cleanData k hk] at bit
    cases bit
  have first : u.afterData = u.disk.byte := overlay_self (by decide) fun w _ stale => absurd stale (data w)
  have second : u.afterInodes = u.afterData := overlay_self (by decide) fun j _ stale => absurd stale (inodes j)
  have third : u.after = u.afterInodes :=
    overlay_self (by decide) fun w _ ⟨j, _, stale⟩ => absurd stale (inodes j)
  exact third.trans (second.trans first)

theorem Committed.after {u v : Ufs} (committed : Committed u v) : v.after = v.disk.byte := by
  refine after_clean (fun j hj => ?_) (fun k hk => ?_)
  · rw [committed.step.s] at hj
    simp [committed.cleanInodes, hj]
  · rw [committed.step.s] at hk
    simp [committed.cleanData, hk]

/-- A commit leaves exactly these bytes. -/
theorem commit_after {b : Build} {u : Ufs} (sound : u.Sound b) :
    ∃ v, commitDirtyToDisk b u = some v ∧ Committed u v ∧ v.disk.byte = u.after := by
  obtain ⟨v, inodes, loopV, afterV⟩ := Runs.foldlM_range (fun n v => InodeLoop u n v ∧ v.after = u.after)
    (fun i s hi loop => by
      obtain ⟨t, turn, next⟩ := inodeLoop_turn sound hi loop.1
      refine ⟨t, turn, next, ?_⟩
      have hs : i < s.s.ni := by rw [loop.1.step.s]; exact hi
      cases dirty : getBitmap s.dirtyInodeBp i with
      | false =>
        simp only [commitInode, dirty, Bool.false_eq_true, if_false, Option.some.injEq] at turn
        exact turn ▸ loop.2
      | true =>
        rw [commitInode_dirty (loop.1.step.sound sound) hs dirty] at turn
        cases Option.some.inj turn
        exact (flushInode_after (loop.1.step.sound sound) ⟨hs, dirty⟩).trans loop.2)
    ⟨⟨MetaStep.refl u, rfl, fun j => by simp, fun old => old⟩, rfl⟩
  have soundV := loopV.step.sound sound
  obtain ⟨w, data, loopW, afterW⟩ := Runs.foldlM_range (fun n w => DataLoop v n w ∧ w.after = v.after)
    (fun k s hk loop => by
      obtain ⟨t, turn, next⟩ := dataLoop_turn soundV hk loop.1
      refine ⟨t, turn, next, ?_⟩
      have hs : k < s.s.nd := by rw [loop.1.step.s]; exact hk
      cases dirty : getBitmap s.dirtyDataBp k with
      | false =>
        simp only [commitData, dirty, Bool.false_eq_true, if_false, Option.some.injEq] at turn
        exact turn ▸ loop.2
      | true =>
        rw [commitData_dirty (loop.1.step.sound soundV) hs dirty] at turn
        cases Option.some.inj turn
        exact (flushData_after hs dirty).trans loop.2)
    ⟨⟨MetaStep.refl v, rfl, fun k => by simp, fun old => old⟩, rfl⟩
  have done : commitDirtyToDisk b u = some w := by
    simp only [commitDirtyToDisk, inodes, Option.bind_some, data]
  obtain ⟨w', done', committed⟩ := commit_ok sound
  cases Option.some.inj (done.symm.trans done')
  refine ⟨w, done, committed, ?_⟩
  exact committed.after.symm.trans (afterW.trans afterV)

/-- The same in memory, and on the disk once what is dirty has been written. -/
structure Same (u v : Ufs) : Prop where
  s : v.s = u.s
  inodeBp : v.inodeBp = u.inodeBp
  dataBp : v.dataBp = u.dataBp
  inodes : v.inodes = u.inodes
  len : v.disk.len = u.disk.len
  after : v.after = u.after

namespace Same

variable {b : Build} {u v : Ufs} {i : Nat}

theorem refl (u : Ufs) : Same u u := ⟨rfl, rfl, rfl, rfl, rfl, rfl⟩

theorem trans {w : Ufs} (first : Same u v) (second : Same v w) : Same u w :=
  ⟨second.s.trans first.s, second.inodeBp.trans first.inodeBp, second.dataBp.trans first.dataBp,
    second.inodes.trans first.inodes, second.len.trans first.len, second.after.trans first.after⟩

theorem sound (same : Same u v) (sound : u.Sound b) : v.Sound b := by
  rw [Ufs.Sound, same.s, same.len]
  exact sound

theorem allocated (same : Same u v) (j : Nat) : v.allocated j ↔ u.allocated j := by
  unfold Ufs.allocated
  rw [same.s, same.inodeBp]

theorem placed (same : Same u v) (placed : u.Placed) : v.Placed := by
  intro j a live real
  rw [same.inodes] at real ⊢
  rw [same.s]
  exact placed j a ((same.allocated j).mp live) real

theorem putBytes (same : Same u v) (sound : u.Sound b) {a n : Nat} (inside : ∀ k < n, u.s.InData (a + k))
    (src : Nat → Byte) : Same (u.putBytes a n src) (v.putBytes a n src) where
  s := same.s
  inodeBp := same.inodeBp
  dataBp := same.dataBp
  inodes := same.inodes
  len := same.len
  after := by
    rw [after_putBytes sound inside, after_putBytes (same.sound sound) (same.s ▸ inside), same.after]

theorem setInode (same : Same u v) (sound : u.Sound b) (staleU : u.staleInode i) (staleV : v.staleInode i) (n : Inode) :
    Same (u.setInode i n) (v.setInode i n) where
  s := same.s
  inodeBp := same.inodeBp
  dataBp := same.dataBp
  inodes := by
    show Function.update v.inodes i n = Function.update u.inodes i n
    rw [same.inodes]
  len := same.len
  after := by
    rw [after_setInode sound staleU, after_setInode (same.sound sound) staleV, same.after, same.s]

theorem markData (same : Same u v) (sound : u.Sound b) {k : Nat} (hk : k < u.s.nd) :
    Same (markData u k) (markData v k) where
  s := same.s
  inodeBp := same.inodeBp
  dataBp := congrArg (setBitmap · k) same.dataBp
  inodes := same.inodes
  len := same.len
  after := by
    rw [after_markData sound hk, after_markData (same.sound sound) (same.s ▸ hk), same.after, same.s, same.dataBp]

/-- A state with a dirty inode, and another in which it is marked again. -/
theorem remark (same : Same u v) (sound : u.Sound b) (stale : u.staleInode i) : Same u (markDirty v i) where
  s := same.s
  inodeBp := same.inodeBp
  dataBp := same.dataBp
  inodes := same.inodes
  len := same.len
  after := by
    rw [after_markDirty (same.sound sound) (same.s ▸ stale.1), same.after, same.s, same.inodeBp, same.inodes,
      ← after_markDirty sound stale.1, after_marked stale]

/-- Commits of both leave the same bytes. -/
theorem commit (same : Same u v) (sound : u.Sound b) :
    ∃ w x, commitDirtyToDisk b u = some w ∧ commitDirtyToDisk b v = some x ∧ Committed u w ∧ Committed v x ∧
      x.disk = w.disk := by
  obtain ⟨w, doneU, committedU, bytesU⟩ := commit_after sound
  obtain ⟨x, doneV, committedV, bytesV⟩ := commit_after (same.sound sound)
  refine ⟨w, x, doneU, doneV, committedU, committedV, ?_⟩
  have len : x.disk.len = w.disk.len := committedV.step.len.trans (same.len.trans committedU.step.len.symm)
  have bytes : x.disk.byte = w.disk.byte := bytesV.trans (same.after.trans bytesU.symm)
  cases hx : x.disk with
  | mk lenX byteX =>
    cases hw : w.disk with
    | mk lenW byteW =>
      rw [hx, hw] at len bytes
      cases len
      cases bytes
      rfl

/-- The state before a commit and the one after it. -/
theorem committed (sound : u.Sound b) : ∃ v, commitDirtyToDisk b u = some v ∧ Committed u v ∧ Same u v := by
  obtain ⟨v, done, committed, bytes⟩ := commit_after sound
  exact ⟨v, done, committed, committed.step.s, committed.step.inodeBp, committed.step.dataBp, committed.step.inodes,
    committed.step.len, committed.after.trans bytes⟩

end Same

/-- What a loop over a file's blocks needs to know of its state. -/
structure Ready (b : Build) (u : Ufs) (i : Nat) : Prop where
  sound : u.Sound b
  placed : u.Placed
  live : u.allocated i
  stale : u.staleInode i

theorem Ready.same {b : Build} {u v : Ufs} {i : Nat} (ready : Ready b u i) (same : Same u v) (stale : v.staleInode i) :
    Ready b v i :=
  ⟨same.sound ready.sound, same.placed ready.placed, (same.allocated i).mpr ready.live, stale⟩

theorem Ready.ensured {b : Build} {u v : Ufs} {i a : Nat} (ready : Ready b u i) (step : Ensured u i a v) :
    Ready b v i where
  sound := step.allocates.sound ready.sound
  placed := step.allocates.placed ready.placed
  live := by
    unfold Ufs.allocated
    rw [step.allocates.s, step.inodeBp]
    exact ready.live
  stale := by
    unfold Ufs.staleInode
    rw [step.allocates.s, step.dirty]
    exact ready.stale

/- The state after n bytes have been written at off of the file's block a. -/
def Ufs.putFile (u : Ufs) (i a off n : Nat) (src : Nat → Byte) : Ufs :=
  stored u i n { u.disk with byte := blit u.disk.byte (4096 * ((u.inodes i).ptr a).toNat + off) n src }

theorem Ready.putFile {b : Build} {u : Ufs} {i : Nat} (ready : Ready b u i) (a off n : Nat) (src : Nat → Byte) :
    Ready b (u.putFile i a off n src) i :=
  ⟨ready.sound, stored_placed ready.placed, ready.live, ready.stale⟩

theorem putFile_congr (u : Ufs) (i a off : Nat) {n : Nat} {src src' : Nat → Byte} (agree : ∀ k < n, src k = src' k) :
    u.putFile i a off n src = u.putFile i a off n src' := by
  unfold Ufs.putFile
  rw [blit_congr _ _ agree]

/-- Two parts of a block, the second where the first ends. -/
theorem putFile_append (u : Ufs) (i a off n l : Nat) (src : Nat → Byte) :
    (u.putFile i a off n src).putFile i a (off + n) l (view src n) = u.putFile i a off (n + l) src := by
  have inode := stored_inode u i n
    { u.disk with byte := blit u.disk.byte (4096 * ((u.inodes i).ptr a).toNat + off) n src }
  unfold Ufs.putFile stored Ufs.setInode at *
  dsimp only at inode ⊢
  rw [inode]
  simp only [Function.update_idem]
  have ptr : Inode.ptr { u.inodes i with size := (u.inodes i).size + BitVec.ofNat 32 n } a = (u.inodes i).ptr a := rfl
  rw [ptr, ← Nat.add_assoc, blit_append, BitVec.add_assoc, ← BitVec.ofNat_add]

section Loop

variable {b : Build} {u v w : Ufs} {i a left cur off n : Nat} {buf : Nat → Byte}

/-- Writes into the same block of the same file. -/
theorem Same.putFile (same : Same u v) (readyU : Ready b u i) (readyV : Ready b v i)
    (real : (u.inodes i).ptr a ≠ -1) (inside : off + n ≤ 4096) (src : Nat → Byte) :
    Same (u.putFile i a off n src) (v.putFile i a off n src) := by
  have data : ∀ k < n, u.s.InData (4096 * ((u.inodes i).ptr a).toNat + off + k) := by
    intro k hk
    have within : off + k < 4096 := by omega
    rw [Nat.add_assoc]
    exact held_data readyU.placed readyU.live real within
  have put := (same.putBytes readyU.sound data src).setInode (i := i) readyU.sound readyU.stale readyV.stale
    { u.inodes i with size := (u.inodes i).size + BitVec.ofNat 32 n }
  have inode : v.inodes i = u.inodes i := congrFun same.inodes i
  unfold Ufs.putFile stored
  rw [inode]
  exact put

/-- A slot gets the same block in both. -/
theorem Same.ensureBlock (same : Same u v) (readyU : Ready b u i) (readyV : Ready b v i) :
    ensureBlock u i a = none ∧ ensureBlock v i a = none ∨
      ∃ x y, ensureBlock u i a = some x ∧ ensureBlock v i a = some y ∧ Same x y := by
  have found : firstClearData v = firstClearData u := by
    unfold firstClearData
    rw [same.s, same.dataBp]
  unfold Icix.ensureBlock
  rw [same.inodes, found]
  by_cases empty : (u.inodes i).ptr a = -1
  · rw [if_pos empty, if_pos empty]
    cases clear : firstClearData u with
    | none => exact Or.inl ⟨rfl, rfl⟩
    | some k =>
      obtain ⟨hk, _⟩ := firstClearData_some clear
      refine Or.inr ⟨_, _, rfl, rfl, ?_⟩
      have block : v.newBlock k = u.newBlock k := by
        unfold Ufs.newBlock
        rw [same.s]
      simp only [block]
      exact (same.markData readyU.sound hk).setInode readyU.sound readyU.stale readyV.stale _
  · rw [if_neg empty, if_neg empty]
    exact Or.inr ⟨u, v, rfl, rfl, same⟩

/-- One turn of the loop, for which a block has been found. -/
theorem writeLoop_turn (buf : Nat → Byte) (ready : Ready b u i) (more : cur < n) (lt : off < 4096)
    (ensured : ensureBlock u i (29 - left) = some v) :
    Ready b v i ∧ (v.inodes i).ptr (29 - left) ≠ -1 ∧ writeLoop b i buf n (left + 1) cur off u =
      writeLoop b i buf n left (cur + min (n - cur) (4096 - off)) 0
        (v.putFile i (29 - left) off (min (n - cur) (4096 - off)) (view buf cur)) := by
  obtain ⟨step, _, real, turn⟩ := writeLoop_step buf ready.sound ready.placed ready.live more lt ensured
  exact ⟨ready.ensured step, real, turn⟩

/-- The same loop from the same place, in a buffer that starts further on. -/
theorem writeLoop_same {buf' : Nat → Byte} {shift : Nat} (agree : ∀ k < n, buf (shift + k) = buf' k) (lt : off < 4096)
    (same : Same u v) (readyU : Ready b u i) (readyV : Ready b v i) :
    ∃ done x y, writeLoop b i buf (shift + n) left (shift + cur) off u = .ok (done, x) ∧
      writeLoop b i buf' n left cur off v = .ok (done, y) ∧ Same x y ∧ Ready b x i ∧ Ready b y i := by
  induction left generalizing cur off u v with
  | zero => exact ⟨true, u, v, rfl, rfl, same, readyU, readyV⟩
  | succ left ih =>
    by_cases all : n ≤ cur
    · exact ⟨true, u, v, writeLoop_done (by omega), writeLoop_done all, same, readyU, readyV⟩
    · have more : cur < n := Nat.lt_of_not_le all
      have moreU : shift + cur < shift + n := by omega
      rcases same.ensureBlock (a := 29 - left) readyU readyV with ⟨noneU, noneV⟩ | ⟨x, y, someU, someV, sameX⟩
      · exact ⟨false, u, v, writeLoop_full moreU noneU, writeLoop_full more noneV, same, readyU, readyV⟩
      · obtain ⟨readyX, realX, turnU⟩ := writeLoop_turn buf readyU moreU lt someU
        obtain ⟨readyY, realY, turnV⟩ := writeLoop_turn buf' readyV more lt someV
        have count : shift + n - (shift + cur) = n - cur := by omega
        rw [count, Nat.add_assoc] at turnU
        have bytes : (y.putFile i (29 - left) off (min (n - cur) (4096 - off)) (view buf' cur)) =
            y.putFile i (29 - left) off (min (n - cur) (4096 - off)) (view buf (shift + cur)) := by
          refine putFile_congr _ _ _ _ fun k hk => ?_
          rw [view_apply, view_apply, Nat.add_assoc, agree _ (by omega)]
        rw [turnU, turnV, bytes]
        exact ih (Nat.succ_pos 4095) (sameX.putFile readyX readyY realX (by omega) _) (readyX.putFile _ _ _ _)
          (readyY.putFile _ _ _ _)

theorem writeLoop_buffer {buf buf' : Nat → Byte} (agree : ∀ k < n, buf k = buf' k) (lt : off < 4096)
    (ready : Ready b u i) (left cur : Nat) :
    ∃ done x y, writeLoop b i buf n left cur off u = .ok (done, x) ∧
      writeLoop b i buf' n left cur off u = .ok (done, y) ∧ Same x y ∧ Ready b x i ∧ Ready b y i := by
  have shifted : ∀ k < n, buf (0 + k) = buf' k := fun k hk => (Nat.zero_add k).symm ▸ agree k hk
  have loops : ∃ done x y, writeLoop b i buf (0 + n) left (0 + cur) off u = .ok (done, x) ∧ _ :=
    writeLoop_same shifted lt (.refl u) ready ready
  rwa [Nat.zero_add, Nat.zero_add] at loops

/-- A loop whose range is cut: it goes as far as the first part's loop does, and then as far
as the second part's, run in a state that is the same. -/
theorem writeLoop_split (buf : Nat → Byte) {start na nb : Nat} (position : Position start (na + nb) left cur off)
    (less : cur < na) (some : 0 < nb) (fits : start + (na + nb) ≤ 122880) (ready : Ready b u i) :
    (∃ x y, writeLoop b i buf na left cur off u = .ok (false, x) ∧
      writeLoop b i buf (na + nb) left cur off u = .ok (false, y)) ∨
    ∃ x, writeLoop b i buf na left cur off u = .ok (true, x) ∧ Ready b x i ∧
      ∀ w, Same x w → Ready b w i → ∃ done y z, writeLoop b i buf (na + nb) left cur off u = .ok (done, y) ∧
        writeLoop b i (view buf na) nb (30 - (start + na) / 4096) 0 ((start + na) % 4096) w = .ok (done, z) ∧
        Same y z ∧ Ready b y i ∧ Ready b z i := by
  have agree : ∀ k < nb, buf (na + k) = view buf na k := fun _ _ => rfl
  induction left generalizing cur off u with
  | zero =>
    have past := position.past (by omega) rfl
    omega
  | succ left ih =>
    have more : cur < na + nb := by omega
    have place := position.at_block more (Nat.succ_ne_zero left)
    have low := position.left_le
    have lt := position.off_lt
    have next := position.next more
    cases ensured : Icix.ensureBlock u i (29 - left) with
    | none => exact Or.inl ⟨u, u, writeLoop_full less ensured, writeLoop_full more ensured⟩
    | some x =>
      obtain ⟨readyX, real, turnA⟩ := writeLoop_turn buf ready less lt ensured
      obtain ⟨-, -, turn⟩ := writeLoop_turn (n := na + nb) buf ready more lt ensured
      rw [turnA, turn]
      by_cases within : cur + (4096 - off) < na
      · -- the block lies in the first part
        have sizeA : min (na - cur) (4096 - off) = 4096 - off := by omega
        have size : min (na + nb - cur) (4096 - off) = 4096 - off := by omega
        rw [size] at next
        rw [sizeA, size]
        exact ih next within (readyX.putFile _ _ _ _)
      · have sizeA : min (na - cur) (4096 - off) = na - cur := by omega
        have all : cur + (na - cur) = na := by omega
        rw [sizeA, all]
        refine Or.inr ⟨_, writeLoop_done (Nat.le_refl na), readyX.putFile _ _ _ _, fun w same readyW => ?_⟩
        by_cases last : cur + (4096 - off) = na
        · -- the cut is at the end of the block
          have size : min (na + nb - cur) (4096 - off) = na - cur := by omega
          have slot : 30 - (start + na) / 4096 = left := by omega
          have rem : (start + na) % 4096 = 0 := by omega
          rw [size, slot, rem]
          rw [all]
          show ∃ done y z, writeLoop b i buf (na + nb) left (na + 0) 0 _ = .ok (done, y) ∧ _
          exact writeLoop_same agree (Nat.succ_pos 4095) same (readyX.putFile _ _ _ _) readyW
        · -- the cut is inside the block, which both parts write to
          have size : min (na + nb - cur) (4096 - off) = na - cur + min nb (4096 - (off + (na - cur))) := by omega
          have slot : 30 - (start + na) / 4096 = left + 1 := by omega
          have rem : (start + na) % 4096 = off + (na - cur) := by omega
          have realA : ((x.putFile i (29 - left) off (na - cur) (view buf cur)).inodes i).ptr (29 - left) ≠ -1 := by
            unfold Ufs.putFile
            rw [stored_ptr]
            exact real
          have realW : (w.inodes i).ptr (29 - left) ≠ -1 := by
            rw [same.inodes]
            exact realA
          have kept : Icix.ensureBlock w i (29 - left) = Option.some w := by
            unfold Icix.ensureBlock
            rw [if_neg realW]
          obtain ⟨-, -, turnB⟩ := writeLoop_turn (view buf na) readyW some (show off + (na - cur) < 4096 by omega) kept
          have bytes : view (view buf cur) (na - cur) = view (view buf na) 0 := by
            funext k
            simp only [view_apply, Nat.zero_add, ← Nat.add_assoc, all]
          have inside : off + (na - cur) + min nb (4096 - (off + (na - cur))) ≤ 4096 := by omega
          have joined := same.putFile (readyX.putFile _ _ _ _) readyW realA inside (view (view buf cur) (na - cur))
          rw [putFile_append] at joined
          rw [size, slot, rem, turnB, Nat.sub_zero, Nat.zero_add, ← bytes, ← Nat.add_assoc, all]
          exact writeLoop_same agree (Nat.succ_pos 4095) joined (readyX.putFile _ _ _ _) (readyW.putFile _ _ _ _)

end Loop

/-- Equal states, but for the dirty bits of no inode or block. -/
structure SameState (u v : Ufs) : Prop where
  s : v.s = u.s
  inodeBp : v.inodeBp = u.inodeBp
  dataBp : v.dataBp = u.dataBp
  inodes : v.inodes = u.inodes
  dirtyInodes : ∀ j : Nat, j < u.s.ni → getBitmap v.dirtyInodeBp j = getBitmap u.dirtyInodeBp j
  dirtyData : ∀ k : Nat, k < u.s.nd → getBitmap v.dirtyDataBp k = getBitmap u.dirtyDataBp k
  disk : v.disk = u.disk

theorem Same.committedBoth {b : Build} {u v : Ufs} (same : Same u v) (sound : u.Sound b) (message : String) :
    ∃ w x, commitOrExit b u message = .ok w ∧ commitOrExit b v message = .ok x ∧ SameState w x := by
  obtain ⟨w, x, doneU, doneV, committedU, committedV, disk⟩ := same.commit sound
  refine ⟨w, x, by simp only [commitOrExit, doneU], by simp only [commitOrExit, doneV], ?_⟩
  have stepU := committedU.step
  have stepV := committedV.step
  refine ⟨stepV.s.trans (same.s.trans stepU.s.symm), stepV.inodeBp.trans (same.inodeBp.trans stepU.inodeBp.symm),
    stepV.dataBp.trans (same.dataBp.trans stepU.dataBp.symm), stepV.inodes.trans (same.inodes.trans stepU.inodes.symm),
    fun j hj => ?_, fun k hk => ?_, disk⟩
  · rw [stepU.s] at hj
    simp [committedU.cleanInodes, committedV.cleanInodes, same.s, hj]
  · rw [stepU.s] at hk
    simp [committedU.cleanData, committedV.cleanData, same.s, hk]

section Write

variable {b : Build} {u : Ufs} {i na nb : Nat} {offset : Int} {buf bufA bufB : Nat → Byte}

theorem Ready.markDirty (sound : u.Sound b) (placed : u.Placed) (live : u.allocated i) : Ready b (markDirty u i) i :=
  ⟨sound, placed, live, live.1, markDirty_dirty u i⟩

/-- ufs_write with its checks met. -/
theorem ufsWrite_regular (buf : Nat → Byte) {n : Nat} (live : u.allocated i)
    (regular : (u.inodes i).type = ufsRegularFile) (low : 0 ≤ offset) (size : offset ≤ (u.inodes i).size.toInt)
    (positive : 0 < n) (le : n ≤ 4096) :
    ufsWrite b u i buf offset n =
      writeLoop b i buf n (30 - offset.toNat / 4096) 0 (offset.toNat % 4096) (markDirty u i) >>= fun out =>
      if out.1 = false then .ok (-1, out.2)
      else commitOrExit b out.2 "ufs_write commit dirty to disk fail" >>= fun v => .ok (0, v) := by
  have bound : (i : Int) < u.s.numInodes.toInt := by
    have below := live.1
    unfold Super.ni at below
    omega
  have writable : u.Writable i offset n :=
    ⟨Int.natCast_nonneg i, bound, live.2, by omega, size, regular, low, by omega⟩
  rw [ufsWrite_writable writable]
  rfl

/-- A regular file after a write that returned 0 takes another one where that has ended. -/
theorem ufsWrite_grown {n : Nat} {v : Ufs} (sound : u.Sound b) (placed : u.Placed) (live : u.allocated i)
    (regular : (u.inodes i).type = ufsRegularFile) (low : 0 ≤ offset) (size : offset ≤ (u.inodes i).size.toInt)
    (blocks : offset + n ≤ 122880) (grows : (u.inodes i).size.toInt + n < 2147483648)
    (returned : ufsWrite b u i buf offset n = .ok (0, v)) :
    v.Sound b ∧ v.Placed ∧ v.allocated i ∧ (v.inodes i).type = ufsRegularFile ∧
      offset + n ≤ (v.inodes i).size.toInt := by
  obtain ⟨-, writing⟩ := ufsWrite_zero sound placed returned blocks
  rw [Int.toNat_natCast, Int.toNat_natCast] at writing
  have length := writing.size_toInt (by omega) grows
  exact ⟨writing.allocates.sound sound, writing.allocates.placed placed, (writing.allocated i).mpr live,
    writing.type.trans regular, by omega⟩

/-- Either a write and its two parts all return 0, or neither the write nor the parts do. -/
theorem ufsWrite_split (sound : u.Sound b) (placed : u.Placed) (live : u.allocated i)
    (regular : (u.inodes i).type = ufsRegularFile) (low : 0 ≤ offset) (size : offset ≤ (u.inodes i).size.toInt)
    (someA : 0 < na) (someB : 0 < nb) (le : na + nb ≤ 4096) (blocks : offset + (na + nb) ≤ 122880)
    (grows : (u.inodes i).size.toInt + (na + nb) < 2147483648)
    (joinA : ∀ k < na, buf k = bufA k) (joinB : ∀ k < nb, buf (na + k) = bufB k) :
    ((∃ x, ufsWrite b u i buf offset (na + nb : Nat) = .ok (-1, x)) ∧
      ∀ v, ufsWrite b u i bufA offset na = .ok (0, v) → ∃ x, ufsWrite b v i bufB (offset + na) nb = .ok (-1, x)) ∨
    ∃ w v x, ufsWrite b u i buf offset (na + nb : Nat) = .ok (0, w) ∧ ufsWrite b u i bufA offset na = .ok (0, v) ∧
      ufsWrite b v i bufB (offset + na) nb = .ok (0, x) ∧ SameState w x := by
  have ready : Ready b (markDirty u i) i := .markDirty sound placed live
  have lt : offset.toNat % 4096 < 4096 := Nat.mod_lt _ (Nat.succ_pos 4095)
  have whole := ufsWrite_regular (b := b) buf live regular low size (show 0 < na + nb by omega) le
  have first := ufsWrite_regular (b := b) bufA live regular low size someA (by omega)
  obtain ⟨doneA, x, xA, loop, loopA, sameA, _, readyA⟩ :=
    writeLoop_buffer joinA lt ready (30 - offset.toNat / 4096) 0
  rw [loopA] at first
  rcases writeLoop_split buf (Position.init offset.toNat (na + nb)) someA someB (by omega) ready with
    ⟨y, z, failed, stopped⟩ | ⟨y, done, readyY, rest⟩
  · -- there is no block for the first part
    rw [stopped] at whole
    cases Except.ok.inj (loop.symm.trans failed)
    exact Or.inl ⟨⟨z, whole⟩, fun v returned => by rw [first] at returned; cases returned⟩
  · cases Except.ok.inj (loop.symm.trans done)
    obtain ⟨v, commitV, _, sameV⟩ := Same.committed readyA.sound
    have firstV : ufsWrite b u i bufA offset na = .ok (0, v) := by
      rw [first, ok_bind, if_neg Bool.true_eq_false.mp, commitOrExit, commitV]
      rfl
    obtain ⟨soundV, placedV, liveV, regularV, sizeV⟩ := ufsWrite_grown sound placed live regular low size
      (by omega) (by omega) firstV
    have readyV : Ready b (markDirty v i) i := .markDirty soundV placedV liveV
    have next := (sameA.trans sameV).remark readyY.sound readyY.stale
    have place : (offset + na).toNat = offset.toNat + na := by omega
    have second := ufsWrite_regular (b := b) bufB liveV regularV (by omega) sizeV someB (by omega)
    obtain ⟨done, y', z, loopY, loopZ, sameZ, readyY', readyZ⟩ := rest _ next readyV
    obtain ⟨doneB, z', zB, loopZ', loopB, sameB, _, _⟩ :=
      writeLoop_buffer joinB (Nat.mod_lt (offset.toNat + na) (Nat.succ_pos 4095)) readyV
        (30 - (offset.toNat + na) / 4096) 0
    cases Except.ok.inj (loopZ.symm.trans loopZ')
    rw [loopY] at whole
    rw [place, loopB] at second
    cases done with
    | false =>
      refine Or.inl ⟨⟨y', whole⟩, fun v' returned => ?_⟩
      cases Except.ok.inj (firstV.symm.trans returned)
      exact ⟨zB, second⟩
    | true =>
      obtain ⟨w, x', commitW, commitX, state⟩ :=
        (sameZ.trans sameB).committedBoth readyY'.sound "ufs_write commit dirty to disk fail"
      refine Or.inr ⟨w, v, x', ?_, firstV, ?_, state⟩
      · rw [whole, ok_bind, if_neg Bool.true_eq_false.mp, commitW]
        rfl
      · rw [second, ok_bind, if_neg Bool.true_eq_false.mp, commitX]
        rfl

end Write

/-- A write of two byte strings one after the other returns 0 exactly when writes of the first
and then of the second both do, and leaves the same state. -/
theorem writes_compose {b : Build} {u : Ufs} {i na nb : Nat} {offset : Int} {buf bufA bufB : Nat → Byte}
    (sound : u.Sound b) (owned : u.Owned) (live : u.allocated i) (regular : (u.inodes i).type = ufsRegularFile)
    (size : offset ≤ (u.inodes i).size.toInt) (someA : 0 < na) (someB : 0 < nb) (le : na + nb ≤ 4096)
    (blocks : offset + (na + nb) ≤ 122880) (grows : (u.inodes i).size.toInt + (na + nb) < 2147483648)
    (joinA : ∀ k < na, buf k = bufA k) (joinB : ∀ k < nb, buf (na + k) = bufB k) :
    ((∃ w, ufsWrite b u i buf offset (na + nb : Nat) = .ok (0, w)) ↔
      ∃ v w, ufsWrite b u i bufA offset na = .ok (0, v) ∧ ufsWrite b v i bufB (offset + na) nb = .ok (0, w)) ∧
    ∀ w v w', ufsWrite b u i buf offset (na + nb : Nat) = .ok (0, w) → ufsWrite b u i bufA offset na = .ok (0, v) →
      ufsWrite b v i bufB (offset + na) nb = .ok (0, w') → SameState w w' := by
  by_cases low : 0 ≤ offset
  · rcases ufsWrite_split sound owned.placed live regular low size someA someB le blocks grows joinA joinB with
      ⟨⟨x, whole⟩, parts⟩ | ⟨w, v, x, whole, first, second, same⟩
    · have failed : ∀ w, ufsWrite b u i buf offset (na + nb : Nat) ≠ .ok (0, w) := by
        intro w returned
        rw [whole] at returned
        cases returned
      refine ⟨⟨fun ⟨w, returned⟩ => absurd returned (failed w), ?_⟩, fun w v w' returned => absurd returned (failed w)⟩
      rintro ⟨v, w, first, second⟩
      obtain ⟨x, failedB⟩ := parts v first
      rw [failedB] at second
      cases second
    · refine ⟨⟨fun _ => ⟨v, x, first, second⟩, fun _ => ⟨w, whole⟩⟩, fun w' v' x' whole' first' second' => ?_⟩
      cases Except.ok.inj (whole.symm.trans whole')
      cases Except.ok.inj (first.symm.trans first')
      cases Except.ok.inj (second.symm.trans second')
      exact same
  · have refused : ∀ (n : Int) (src : Nat → Byte), ufsWrite b u i src offset n = .ok (-1, u) :=
      fun n src => ufsWrite_unwritable fun writable => low writable.offset_nonneg
    refine ⟨⟨?_, ?_⟩, ?_⟩
    · rintro ⟨w, returned⟩
      rw [refused] at returned
      cases returned
    · rintro ⟨v, w, returned, -⟩
      rw [refused] at returned
      cases returned
    · intro w v w' returned
      rw [refused] at returned
      cases returned

theorem writes_compose_small : ∃ u, Run (call .kernel) (Harmless .kernel) smallest
    [.creat 0 1 (letter 97 (by decide)) zeros] u ∧
    ((∃ w, ufsWrite .kernel u (1 : Nat) (fun _ => 7) 0 (2 + 3 : Nat) = .ok (0, w)) ↔
      ∃ v w, ufsWrite .kernel u (1 : Nat) (fun _ => 7) 0 (2 : Nat) = .ok (0, v) ∧
        ufsWrite .kernel v (1 : Nat) (fun _ => 7) (0 + (2 : Nat)) (3 : Nat) = .ok (0, w)) := by
  obtain ⟨u, run, check⟩ := run_of_check (call .kernel) (Harmless .kernel)
    (fun _ c => !c.removes) smallest [.creat 0 1 (letter 97 (by decide)) zeros]
    (fun u => decide (u.allocated 1) && decide ((u.inodes 1).type = ufsRegularFile) && decide ((u.inodes 1).size = 0))
    (fun u c test => by
      cases c with
      | unlink => cases test
      | _ => trivial)
    (by decide +kernel)
  simp only [Bool.and_eq_true, decide_eq_true_eq] at check
  obtain ⟨⟨live, regular⟩, size⟩ := check
  have kept := Run.owned (smallest_fresh .kernel) run
  have empty : (u.inodes 1).size.toInt = 0 := by
    rw [size]
    decide
  have sevens : ∀ n : Nat, ∀ k < n, (7 : Byte) = 7 := fun _ _ _ => rfl
  have composed := writes_compose kept.1 kept.2 live regular (Int.le_of_eq empty.symm)
    (show 0 < 2 by decide) (show 0 < 3 by decide) (by decide) (by decide) (by rw [empty]; decide) (sevens 2) (sevens 3)
  exact ⟨u, run, composed.1⟩

end Icix
