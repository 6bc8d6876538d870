import Icix.Fs.Read

/-! The loop of ufs_write. Its invariant compares the state with the one the loop
started in: what has been written, what has been kept, and who owns the blocks. -/
namespace Icix
open Bytes Ownership

/-- v is u after cur bytes of buf have gone to file i at start. -/
structure Writing (u : Ufs) (i : Nat) (buf : Nat → Byte) (start cur : Nat) (v : Ufs) : Prop where
  allocates : Allocates True u v
  inodeBp : v.inodeBp = u.inodeBp
  other : ∀ j, j ≠ i → v.inodes j = u.inodes j
  type : (v.inodes i).type = (u.inodes i).type
  size : (v.inodes i).size = (u.inodes i).size + BitVec.ofNat 32 cur
  ptr : ∀ a, (u.inodes i).ptr a ≠ -1 → (v.inodes i).ptr a = (u.inodes i).ptr a
  mapped : ∀ k, k < cur → (v.inodes i).ptr ((start + k) / 4096) ≠ -1
  kept : u.Owned → ∀ j x, u.allocated j → (u.inodes j).ptr (x / 4096) ≠ -1 →
    (j = i → x < start ∨ start + cur ≤ x) → v.fileByte j x = u.fileByte j x
  written : u.Owned → ∀ k, k < cur → v.fileByte i (start + k) = buf k

namespace Writing

variable {b : Build} {u v w : Ufs} {i start cur a off n : Nat} {buf : Nat → Byte}

/-- Nothing is written yet; the dirty bits do not count. -/
theorem init (s : v.s = u.s) (inodeBp : v.inodeBp = u.inodeBp) (dataBp : v.dataBp = u.dataBp)
    (inodes : v.inodes = u.inodes) (disk : v.disk = u.disk) : Writing u i buf start 0 v where
  allocates := .congr s (congrArg Disk.len disk) inodeBp dataBp (fun j a => by rw [inodes])
  inodeBp := inodeBp
  other j _ := congrFun inodes j
  type := by rw [inodes]
  size := by rw [inodes]; exact (BitVec.add_zero _).symm
  ptr _ _ := by rw [inodes]
  mapped k hk := absurd hk (Nat.not_lt_zero k)
  kept _ _ _ _ _ _ := by rw [Ufs.fileByte, Ufs.fileByte, inodes, disk]
  written _ k hk := absurd hk (Nat.not_lt_zero k)

theorem allocated (writing : Writing u i buf start cur v) (j : Nat) : v.allocated j ↔ u.allocated j := by
  unfold Ufs.allocated
  rw [writing.allocates.s, writing.inodeBp]

/-- A slot held in u still holds the same block. -/
theorem held (writing : Writing u i buf start cur v) {j : Nat} (real : (u.inodes j).ptr a ≠ -1) :
    (v.inodes j).ptr a = (u.inodes j).ptr a := by
  by_cases same : j = i
  · subst j
    exact writing.ptr a real
  · rw [writing.other j same]

theorem committed (sound : u.Sound b) (placed : u.Placed) (live : u.allocated i)
    (writing : Writing u i buf start cur v) (step : MetaStep v w) : Writing u i buf start cur w where
  allocates := writing.allocates.trans step.allocates
  inodeBp := step.inodeBp.trans writing.inodeBp
  other j hj := (congrFun step.inodes j).trans (writing.other j hj)
  type := by rw [step.inodes]; exact writing.type
  size := by rw [step.inodes]; exact writing.size
  ptr := by rw [step.inodes]; exact writing.ptr
  mapped := by rw [step.inodes]; exact writing.mapped
  kept owned j x liveJ real outside := by
    rw [step.fileByte (writing.allocates.sound sound) (writing.allocates.placed placed)
      ((writing.allocated j).mpr liveJ) (writing.held real ▸ real), writing.kept owned j x liveJ real outside]
  written owned k hk := by
    rw [step.fileByte (writing.allocates.sound sound) (writing.allocates.placed placed)
      ((writing.allocated i).mpr live) (writing.mapped k hk), writing.written owned k hk]

end Writing

theorem firstClearData_some {u : Ufs} {k : Nat} (found : firstClearData u = some k) :
    k < u.s.nd ∧ getBitmap u.dataBp k = false := by
  have clear := List.find?_some found
  have inside := List.mem_of_find?_eq_some found
  exact ⟨List.mem_range.mp inside, by simpa using clear⟩

/-- What giving slot a of file i a block, where it has none, does. -/
structure Ensured (u : Ufs) (i a : Nat) (v : Ufs) : Prop where
  allocates : Allocates True u v
  marked : getBitmap u.dirtyInodeBp i = true → Marked u v
  disk : v.disk = u.disk
  inodeBp : v.inodeBp = u.inodeBp
  dirty : v.dirtyInodeBp = u.dirtyInodeBp
  other : ∀ j, j ≠ i → v.inodes j = u.inodes j
  type : (v.inodes i).type = (u.inodes i).type
  size : (v.inodes i).size = (u.inodes i).size
  ptr : ∀ j c, (u.inodes j).ptr c ≠ -1 → (v.inodes j).ptr c = (u.inodes j).ptr c
  real : (v.inodes i).ptr a ≠ -1

theorem ensureBlock_spec {b : Build} {u v : Ufs} {i a : Nat} (sound : u.Sound b) (live : u.allocated i)
    (ha : a < 30) (ensured : ensureBlock u i a = some v) : Ensured u i a v := by
  unfold ensureBlock at ensured
  split at ensured
  · rename_i empty
    obtain ⟨k, found, allocation⟩ := Option.map_eq_some_iff.mp ensured
    have free := firstClearData_some found
    have inode : v.inodes i = (u.inodes i).setPtr a (u.newBlock k) := by
      rw [← allocation]
      exact Function.update_self ..
    have other : ∀ j, j ≠ i → v.inodes j = u.inodes j := by
      intro j hj
      rw [← allocation]
      exact Function.update_of_ne hj _ _
    have slots : ∀ c, (v.inodes i).ptr c = if c = a then u.newBlock k else (u.inodes i).ptr c :=
      fun c => inode ▸ Inode.ptr_setPtr _ ha _ c
    have s : v.s = u.s := by rw [← allocation]; rfl
    have disk : v.disk = u.disk := by rw [← allocation]; rfl
    have inodeBp : v.inodeBp = u.inodeBp := by rw [← allocation]; rfl
    have bits : ∀ j : Nat, getBitmap v.dataBp j = (decide (j = k) || getBitmap u.dataBp j) := by
      intro j
      rw [← allocation]
      exact get_set_nat u.dataBp k j
    refine ⟨alloc_block sound live empty free.1 free.2 s (congrArg Disk.len disk) inodeBp other slots bits,
      fun bit => ?_, disk, inodeBp, by rw [← allocation]; rfl, other, inode ▸ Inode.type_setPtr _ _ _,
      inode ▸ Inode.size_setPtr _ _ _, ?_, ?_⟩
    · rw [← allocation]
      exact (Marked.markData u k).trans (.setInode (markData u k) bit _)
    · intro j c real
      by_cases same : j = i
      · subst j
        have elsewhere : c ≠ a := by
          rintro rfl
          exact real empty
        rw [slots, if_neg elsewhere]
      · rw [other j same]
    · rw [slots, if_pos rfl]
      exact newBlock_real sound free.1
  · rename_i real
    cases Option.some.inj ensured
    exact ⟨.refl _ _, fun _ => .refl _, rfl, rfl, rfl, fun _ _ => rfl, rfl, rfl, fun _ _ _ => rfl, real⟩

theorem Ensured.fileByte {u v : Ufs} {i a j x : Nat} (ensured : Ensured u i a v)
    (real : (u.inodes j).ptr (x / 4096) ≠ -1) : v.fileByte j x = u.fileByte j x := by
  unfold Ufs.fileByte
  rw [ensured.ptr j _ real, ensured.disk]

namespace Writing

variable {b : Build} {u v w : Ufs} {i start cur a off n : Nat} {buf : Nat → Byte}

theorem ensure (writing : Writing u i buf start cur v) (ensured : Ensured v i a w) :
    Writing u i buf start cur w where
  allocates := writing.allocates.trans ensured.allocates
  inodeBp := ensured.inodeBp.trans writing.inodeBp
  other j hj := (ensured.other j hj).trans (writing.other j hj)
  type := ensured.type.trans writing.type
  size := ensured.size.trans writing.size
  ptr c real := by
    have before := writing.ptr c real
    rw [ensured.ptr i c (before ▸ real), before]
  mapped k hk := by
    have before := writing.mapped k hk
    exact ensured.ptr i _ before ▸ before
  kept owned j x live real outside := by
    rw [ensured.fileByte (writing.held real ▸ real), writing.kept owned j x live real outside]
  written owned k hk := (ensured.fileByte (writing.mapped k hk)).trans (writing.written owned k hk)

/-- Writing the next n bytes into block a of the file keeps the loop's invariant. -/
theorem put (live : u.allocated i) (writing : Writing u i buf start cur v)
    (real : (v.inodes i).ptr a ≠ -1) (position : start + cur = 4096 * a + off) (inside : off + n ≤ 4096)
    (s : w.s = v.s) (len : w.disk.len = v.disk.len) (inodeBp : w.inodeBp = v.inodeBp)
    (dataBp : w.dataBp = v.dataBp)
    (other : ∀ j, j ≠ i → w.inodes j = v.inodes j)
    (inode : w.inodes i = { v.inodes i with size := (v.inodes i).size + BitVec.ofNat 32 n })
    (bytes : w.disk.byte =
      blit v.disk.byte (4096 * ((v.inodes i).ptr a).toNat + off) n (view buf cur)) :
    Writing u i buf start (cur + n) w := by
  have ptr : ∀ j c, (w.inodes j).ptr c = (v.inodes j).ptr c := by
    intro j c
    by_cases same : j = i
    · subst j
      rw [inode]
      rfl
    · rw [other j same]
  have liveV := (writing.allocated i).mpr live
  have byte := fun j x => fileByte_blit (u := v) (v := w) (j := j) (x := x) inside (ptr j _) bytes
  -- a block hit by the write is block a of file i, since no other slot holds it
  have hit : u.Owned → ∀ j x, v.allocated j → (v.inodes j).ptr (x / 4096) ≠ -1 →
      ((v.inodes j).ptr (x / 4096)).toNat = ((v.inodes i).ptr a).toNat → j = i ∧ x / 4096 = a := by
    intro owned j x liveJ realJ same
    have slots := (writing.allocates.owned owned).exclusive (j, x / 4096) (i, a) _
      (ref_eq_some.mpr ⟨liveJ, realJ, same⟩) (ref_eq_some.mpr ⟨liveV, real, rfl⟩)
    exact Prod.mk.inj slots
  refine ⟨writing.allocates.trans (.congr s len inodeBp dataBp ptr), inodeBp.trans writing.inodeBp,
    fun j hj => (other j hj).trans (writing.other j hj), ?_, ?_, ?_, ?_, ?_, ?_⟩
  · rw [inode]
    exact writing.type
  · rw [inode]
    show (v.inodes i).size + _ = _
    rw [writing.size, BitVec.add_assoc, ← BitVec.ofNat_add]
  · intro c realC
    rw [ptr, writing.ptr c realC]
  · intro k hk
    rw [ptr]
    by_cases old : k < cur
    · exact writing.mapped k old
    · have block : (start + k) / 4096 = a := by omega
      rw [block]
      exact real
  · intro owned j x liveJ realJ outside
    have realV : (v.inodes j).ptr (x / 4096) ≠ -1 := writing.held realJ ▸ realJ
    rw [byte, if_neg, writing.kept owned j x liveJ realJ (fun same => by have := outside same; omega)]
    rintro ⟨same, low, high⟩
    obtain ⟨rfl, block⟩ := hit owned j x ((writing.allocated j).mpr liveJ) realV same
    have := outside rfl
    omega
  · intro owned k hk
    by_cases old : k < cur
    · rw [byte, if_neg, writing.written owned k old]
      rintro ⟨same, low, high⟩
      obtain ⟨_, block⟩ := hit owned i (start + k) liveV (writing.mapped k old) same
      omega
    · have block : (start + k) / 4096 = a := by omega
      rw [byte, if_pos ⟨by rw [block], by omega, by omega⟩, view_apply]
      congr 1
      omega

end Writing

/-- The loop of ufs_write never fails to return. It stops with all bytes written,
past the last pointer, or, with false, for want of a block. -/
theorem writeLoop_spec {b : Build} {u : Ufs} {i start n : Nat} {buf : Nat → Byte} (sound : u.Sound b)
    (placed : u.Placed) (live : u.allocated i) (left cur off : Nat) (v : Ufs)
    (position : Position start n left cur off) (le : cur ≤ n) (writing : Writing u i buf start cur v)
    (marked : Marked u v) (dirty : getBitmap v.dirtyInodeBp i = true) :
    ∃ done w cur', writeLoop b i buf n left cur off v = .ok (done, w) ∧
      Writing u i buf start cur' w ∧ Marked u w ∧ cur' ≤ n ∧
      (done = true → cur' = n ∨ 122880 ≤ start + cur') ∧
      (done = false → cur' < n ∧ start + cur' < 122880 ∧ firstClearData w = none) := by
  induction left generalizing cur off v with
  | zero =>
    refine ⟨true, v, cur, rfl, writing, marked, le, fun _ => ?_, fun h => by cases h⟩
    by_cases more : cur < n
    · exact Or.inr (position.past more rfl)
    · exact Or.inl (by omega)
  | succ left ih =>
    unfold writeLoop
    by_cases all : n ≤ cur
    · exact ⟨true, v, cur, by simp only [if_pos all], writing, marked, le, fun _ => Or.inl (by omega),
        fun h => by cases h⟩
    · have more : cur < n := Nat.lt_of_not_ge all
      have place := position.at_block more (Nat.succ_ne_zero left)
      have low := position.left_le
      have lt := position.off_lt
      simp only [if_neg all]
      cases ensured : ensureBlock v i (29 - left) with
      | none =>
        refine ⟨false, v, cur, rfl, writing, marked, le, fun h => (by cases h), fun _ => ⟨more, by omega, ?_⟩⟩
        unfold ensureBlock at ensured
        split at ensured
        · exact Option.map_eq_none_iff.mp ensured
        · cases ensured
      | some w =>
        have soundV := writing.allocates.sound sound
        have liveV := (writing.allocated i).mpr live
        have step := ensureBlock_spec soundV liveV (by omega) ensured
        have next := writing.ensure step
        have placedW := next.allocates.placed placed
        have liveW := (next.allocated i).mpr live
        have soundW := next.allocates.sound sound
        have positive : 0 < min (n - cur) (4096 - off) := by omega
        have fits : off + min (n - cur) (4096 - off) ≤ 4096 := by omega
        have write := held_write placedW liveW step.real soundW positive fits (view buf cur)
        have dirtyW : getBitmap w.dirtyInodeBp i = true := step.dirty ▸ dirty
        simp only [write]
        refine ih _ 0 _ (position.next more) (by omega) ?_ ((marked.trans (step.marked dirty)).trans ?_) dirtyW
        · exact next.put live step.real (by omega) fits rfl rfl rfl rfl
            (fun j hj => Function.update_of_ne hj _ _) (Function.update_self ..) rfl
        · refine Marked.trans (.putBytes (fun k hk => ?_) (view buf cur)) (.setInode (w.putBytes _ _ _) dirtyW _)
          have within : off + k < 4096 := by omega
          have data := held_data placedW liveW step.real within
          rwa [← Nat.add_assoc] at data

end Icix
