import Mathlib.Data.List.Sort
import Icix.Fs.Removal

/-! ufs_unlink in directories with holes: unused slots between used ones, and slots of a
block that is missing. Its two searches, the one of ufs_lookup and the one for the slot
to overwrite, agree where the names differ. -/
namespace Icix
open Bytes Ownership Runs

/-- The slots of directory p that are in use: there is a block, and the inum is not -1. -/
def Ufs.usedSlots (u : Ufs) (p : Nat) : List Nat :=
  (List.range 30).flatMap fun a =>
    if (u.inodes p).ptr a = -1 then []
    else ((List.range 128).filter (usedEntry (u.block p a))).map (128 * a + ·)

/- The string that a slot holds, if its NUL lies in the slot. -/
def Ufs.slotName (u : Ufs) (p t : Nat) : Option (List Byte) := readString 32 (u.entry p t)

/-- No string is that of two used slots. -/
def Ufs.NamesDiffer (u : Ufs) (p : Nat) : Prop :=
  ∀ s ∈ u.usedSlots p, ∀ t ∈ u.usedSlots p, u.slotName p s = u.slotName p t → u.slotName p s ≠ none → s = t

theorem namesDiffer_of_nodup {u : Ufs} {p : Nat} (names : ((u.usedSlots p).map (u.slotName p)).Nodup) :
    u.NamesDiffer p :=
  fun _ hs _ ht same _ => List.inj_on_of_nodup_map names hs ht same

theorem mem_usedSlots {u : Ufs} {p t : Nat} :
    t ∈ u.usedSlots p ↔ (u.inodes p).ptr (t / 128) ≠ -1 ∧ entInum (u.entry p t) ≠ -1 := by
  rw [Ufs.usedSlots, List.mem_flatMap]
  constructor
  · rintro ⟨a, _, mem⟩
    split at mem
    · cases mem
    · rename_i real
      obtain ⟨j, used, rfl⟩ := List.mem_map.mp mem
      obtain ⟨inside, used⟩ := List.mem_filter.mp used
      have hj := List.mem_range.mp inside
      have block : (128 * a + j) / 128 = a := by omega
      rw [block, ← entInum_block hj]
      exact ⟨real, of_decide_eq_true used⟩
  · rintro ⟨real, used⟩
    have index : 128 * (t / 128) + t % 128 = t := Nat.div_add_mod t 128
    have hj : t % 128 < 128 := Nat.mod_lt t (Nat.succ_pos 127)
    refine ⟨t / 128, List.mem_range.mpr (Inode.ptr_lt real), ?_⟩
    rw [if_neg real]
    refine List.mem_map.mpr ⟨t % 128, List.mem_filter.mpr ⟨List.mem_range.mpr hj, decide_eq_true ?_⟩, index⟩
    rw [entInum_block hj, index]
    exact used

theorem usedSlots_sorted (u : Ufs) (p : Nat) : (u.usedSlots p).Pairwise (· < ·) := by
  have inside : ∀ a, ∀ t ∈ (if (u.inodes p).ptr a = -1 then [] else
      ((List.range 128).filter (usedEntry (u.block p a))).map (128 * a + ·)), 128 * a ≤ t ∧ t < 128 * a + 128 := by
    intro a t mem
    split at mem
    · cases mem
    · obtain ⟨j, used, rfl⟩ := List.mem_map.mp mem
      have hj := List.mem_range.mp (List.mem_filter.mp used).1
      omega
  refine List.pairwise_flatMap.mpr ⟨fun a _ => ?_, List.pairwise_lt_range.imp (fun before s hs t ht => ?_)⟩
  · split
    · exact .nil
    · exact List.pairwise_map.mpr ((List.pairwise_lt_range.filter _).imp (fun lt => Nat.add_lt_add_left lt _))
  · have first := inside _ s hs
    have second := inside _ t ht
    omega

theorem usedSlots_nodup (u : Ufs) (p : Nat) : (u.usedSlots p).Nodup :=
  (usedSlots_sorted u p).imp Nat.ne_of_lt

/-- The used slots of block a are the used entries of its bytes. -/
theorem mem_usedSlots_block {u : Ufs} {p a j : Nat} (real : (u.inodes p).ptr a ≠ -1) (hj : j < 128) :
    128 * a + j ∈ u.usedSlots p ↔ usedEntry (u.block p a) j = true := by
  have block : (128 * a + j) / 128 = a := by omega
  rw [mem_usedSlots, block, usedEntry, decide_eq_true_eq, entInum_block hj]
  exact and_iff_right real

theorem slotName_block {u : Ufs} {p a j : Nat} (hj : j < 128) :
    readString 32 (view (u.block p a) (32 * j)) = u.slotName p (128 * a + j) :=
  readString_congr (fun _ hk => block_entry u p a hj hk)

/- The first search: what ufs_lookup returns is in a used slot of that name. -/
section Lookup

variable {name : CString} {inum : Int}

theorem lookupBlock_found {b : Build} {d : Disk} {left cursor : Nat} {cnt : Int}
    (found : lookupBlock b d name left cursor cnt = .ok (.inl inum)) :
    ∃ j < left, cursor + 32 ≤ d.len ∧ entInum (view d.byte (cursor + 32 * j)) ≠ -1 ∧
      (entInum (view d.byte (cursor + 32 * j))).toInt = inum ∧
      readString 32 (view d.byte (cursor + 32 * j)) = some name.chars := by
  induction left generalizing cursor cnt with
  | zero => cases found
  | succ left ih =>
    rw [lookupBlock_succ] at found
    split at found
    · cases found
    · rename_i ent read
      unfold Disk.read at read
      split at read
      · rename_i inside
        cases Option.some.inj read
        split at found
        · cases found
        · rename_i used
          split at found
          · cases found
          · rename_i r run
            split at found
            · rename_i same
              cases Sum.inl.inj (Except.ok.inj found)
              obtain ⟨cs, named, holds, short⟩ := strcmp_zero (same ▸ run)
              cases holds_unique named name.holds
              exact ⟨0, Nat.succ_pos left, inside, used, rfl, readString_eq_some.mpr ⟨holds, short⟩⟩
            · split at found
              · cases found
              · obtain ⟨j, hj, _, rest⟩ := ih found
                have addr : cursor + 32 * (j + 1) = cursor + 32 + 32 * j := by omega
                refine ⟨j + 1, Nat.succ_lt_succ hj, inside, ?_⟩
                rw [addr]
                exact rest
      · cases read

variable {b : Build} {u : Ufs} {p : Nat} (sound : u.Sound b) (placed : u.Placed) (live : u.allocated p)
include sound placed live

theorem lookupBlocks_found {left : Nat} {cnt : Int} (real : inum ≠ -1)
    (found : lookupBlocks b u.disk name (u.inodes p) left cnt = .ok inum) :
    ∃ t ∈ u.usedSlots p, u.slotName p t = some name.chars ∧ (entInum (u.entry p t)).toInt = inum := by
  induction left generalizing cnt with
  | zero =>
    cases Except.ok.inj found
    exact absurd rfl real
  | succ left ih =>
    rw [lookupBlocks_succ] at found
    split at found
    · cases Except.ok.inj found
      exact absurd rfl real
    · split at found
      · cases found
      · rename_i cursor seek
        obtain ⟨r, block, found⟩ := Runs.bind_ok.mp found
        cases r with
        | inr rest => exact ih found
        | inl i =>
          cases Except.ok.inj found
          obtain ⟨j, hj, inside, used, value, name⟩ := lookupBlock_found block
          have place := lseek_cursor seek
          have held : (u.inodes p).ptr (29 - left) ≠ -1 := by
            intro empty
            have top : ((-1 : Word) * 4096).toNat = 4294963200 := by decide
            have limit : b.limit ≤ 4294963200 := by cases b <;> decide
            have len := sound.disk_le
            rw [empty, top] at place
            omega
          have addr := held_addr placed live held sound (by decide : 0 < 4096)
          rw [show BitVec.ofNat 32 0 = 0#32 from rfl, BitVec.add_zero, Nat.add_zero] at addr
          have bytes : view u.disk.byte (cursor + 32 * j) = view (u.block p (29 - left)) (32 * j) := by
            funext k
            simp only [Ufs.block, view_apply, place, addr, Nat.add_assoc]
          rw [bytes] at used value name
          refine ⟨128 * (29 - left) + j, (mem_usedSlots_block held hj).mpr (decide_eq_true used), ?_, ?_⟩
          · rw [← slotName_block hj, name]
          · rw [← entInum_block hj, value]

theorem ufsLookup_found {inum : Nat} (found : ufsLookup b u p name = .ok inum) :
    (u.inodes p).size.toNat % 32 = 0 ∧
      ∃ t ∈ u.usedSlots p, u.slotName p t = some name.chars ∧ (entInum (u.entry p t)).toInt = inum := by
  obtain ⟨_, whole, searched⟩ := lookup_ok found
  exact ⟨whole, lookupBlocks_found sound placed live (by omega) searched⟩

end Lookup

/-- What an unlink of slot t of directory p, where inode inum is named, leaves. -/
structure Struck (u : Ufs) (p t inum : Nat) (w : Ufs) : Prop where
  slots : w.usedSlots p = (u.usedSlots p).erase t
  entries : ∀ s ∈ w.usedSlots p, ∀ k < 32, w.entry p s k = u.entry p s k
  size : (w.inodes p).size.toNat = 32 * (w.usedSlots p).length
  blocks : ∀ d, u.s.dr ≤ d → d < u.s.dr + u.s.nd → (∀ a, u.ref (p, a) ≠ some d) →
    ∀ x < 4096, w.disk.byte (4096 * d + x) = u.disk.byte (4096 * d + x)
  inodeBits : ∀ i : Nat, i < u.s.ni → getBitmap w.inodeBp i = (decide (i ≠ inum) && getBitmap u.inodeBp i)
  empty : (u.inodes inum).type = ufsDirectory → (u.inodes inum).size = 64

/- The second search, for a name that the first has found in slot t. -/
section Search

variable {b : Build} {u w : Ufs} {p t : Nat} {name : CString} (names : u.NamesDiffer p)
  (used : t ∈ u.usedSlots p) (named : u.slotName p t = some name.chars)
include names used named

/-- An entry that a scan hits is that of slot t. -/
theorem scan_hit {a j cnt : Nat} (real : (u.inodes p).ptr a ≠ -1)
    (scan : scanBlock (u.block p a) name 128 (none, 0) = .ok (some j, cnt)) : j < 128 ∧ t = 128 * a + j := by
  have short := (readString_eq_some.mp named).2
  rcases (scanBlock_spec (Nat.le_refl 128) scan).hit j rfl with before | ⟨_, hj, here, holds⟩
  · cases before
  · have slot := (mem_usedSlots_block real hj).mpr here
    have same : u.slotName p (128 * a + j) = some name.chars := by
      rw [← slotName_block hj]
      exact readString_eq_some.mpr ⟨holds, short⟩
    exact ⟨hj, names t used _ slot (named.trans same.symm) (by rw [named]; exact Option.some_ne_none _)⟩

omit names in
/-- And the scan of its block does not miss it. -/
theorem scan_miss {cnt : Nat} :
    scanBlock (u.block p (t / 128)) name 128 (none, 0) ≠ .ok (none, cnt) := by
  intro scan
  have hj : t % 128 < 128 := Nat.mod_lt t (Nat.succ_pos 127)
  have index : 128 * (t / 128) + t % 128 = t := Nat.div_add_mod t 128
  have slot := (mem_usedSlots_block (mem_usedSlots.mp used).1 hj).mp (index.symm ▸ used)
  have read : readString 32 (view (u.block p (t / 128)) (32 * (t % 128))) = some name.chars := by
    rw [slotName_block hj, index, named]
  obtain ⟨holds, short⟩ := readString_eq_some.mp read
  exact ((scanBlock_spec (Nat.le_refl 128) scan).miss rfl).2 _ (Nat.zero_le _) hj slot short holds

end Search

theorem eq_of_countP_one {l : List Nat} {q : Nat → Bool} (one : l.countP q = 1) {x y : Nat} (hx : x ∈ l)
    (qx : q x = true) (hy : y ∈ l) (qy : q y = true) : x = y := by
  rw [List.countP_eq_length_filter, List.length_eq_one_iff] at one
  obtain ⟨z, only⟩ := one
  have first : x ∈ l.filter q := List.mem_filter.mpr ⟨hx, qx⟩
  have second : y ∈ l.filter q := List.mem_filter.mpr ⟨hy, qy⟩
  rw [only, List.mem_singleton] at first second
  exact first.trans second.symm

/-- Which slots are left, and with what in them. -/
structure Unused (u : Ufs) (p t : Nat) (w : Ufs) : Prop where
  used : ∀ s, s ∈ w.usedSlots p ↔ s ∈ u.usedSlots p ∧ s ≠ t
  entries : ∀ s ∈ w.usedSlots p, ∀ k < 32, w.entry p s k = u.entry p s k
  blocks : ∀ d, u.s.dr ≤ d → d < u.s.dr + u.s.nd → (∀ a, u.ref (p, a) ≠ some d) →
    ∀ x < 4096, w.disk.byte (4096 * d + x) = u.disk.byte (4096 * d + x)

theorem Unused.slots {u w : Ufs} {p t : Nat} (left : Unused u p t w) : w.usedSlots p = (u.usedSlots p).erase t := by
  refine (usedSlots_sorted w p).eq_of_mem_iff ((usedSlots_sorted u p).erase t) (fun s => ?_)
  rw [left.used, (usedSlots_nodup u p).mem_erase_iff, and_comm]

section Same

variable {u w : Ufs} {p s : Nat} (ptr : (w.inodes p).ptr (s / 128) = (u.inodes p).ptr (s / 128))
include ptr

theorem entry_same (bytes : ∀ x < 4096, w.disk.byte (4096 * ((u.inodes p).ptr (s / 128)).toNat + x) =
    u.disk.byte (4096 * ((u.inodes p).ptr (s / 128)).toNat + x) ∨ x / 32 ≠ s % 128) :
    ∀ k < 32, w.entry p s k = u.entry p s k := by
  intro k hk
  have block : (32 * s + k) / 4096 = s / 128 := by omega
  have rem : (32 * s + k) % 4096 = 32 * (s % 128) + k := by omega
  have entry : (32 * (s % 128) + k) / 32 = s % 128 := by omega
  rw [Ufs.entry, Ufs.entry, Ufs.fileByte, Ufs.fileByte, block, rem, ptr]
  exact (bytes _ (by omega)).resolve_right (not_not.mpr entry)

theorem used_same (entries : (u.inodes p).ptr (s / 128) ≠ -1 → ∀ k < 32, w.entry p s k = u.entry p s k) :
    s ∈ w.usedSlots p ↔ s ∈ u.usedSlots p := by
  rw [mem_usedSlots, mem_usedSlots, ptr]
  exact and_congr_right (fun held => by rw [entInum_congr (entries held)])

end Same

section Unlink

variable {b : Build} {u w : Ufs} {p t : Nat} {name : CString} (sound : u.Sound b) (placed : u.Placed)
  (live : u.allocated p) (names : u.NamesDiffer p) (slot : t ∈ u.usedSlots p)
  (named : u.slotName p t = some name.chars)
include sound placed live names slot named

/-- A block with one used entry is given up, and nothing else of the directory. -/
theorem unused_block {a j : Nat} (real : (u.inodes p).ptr a ≠ -1)
    (scan : scanBlock (u.block p a) name 128 (none, 0) = .ok (some j, 1))
    (ptr : ∀ c, (w.inodes p).ptr c = if c = a then -1 else (u.inodes p).ptr c)
    (bytes : ∀ x, ¬ u.s.InMeta x → w.disk.byte x = u.disk.byte x) : Unused u p t w := by
  obtain ⟨hj, rfl⟩ := scan_hit names slot named real scan
  have count := (scanBlock_spec (Nat.le_refl 128) scan).count
  have same : ∀ s, s / 128 ≠ a → (u.inodes p).ptr (s / 128) ≠ -1 → ∀ k < 32, w.entry p s k = u.entry p s k := by
    intro s other held
    have range := placed p _ live held
    exact entry_same ((ptr _).trans (if_neg other))
      (fun x hx => Or.inl (bytes _ (data_outside sound range.1 range.2 hx)))
  refine ⟨fun s => ?_, fun s left => ?_, fun d low high _ x hx => bytes _ (data_outside sound low high hx)⟩
  · by_cases here : s / 128 = a
    · rw [mem_usedSlots, ptr, if_pos here]
      refine ⟨fun h => absurd rfl h.1, fun ⟨used, other⟩ => ?_⟩
      have index : 128 * a + s % 128 = s := by omega
      have rem : s % 128 < 128 := Nat.mod_lt s (Nat.succ_pos 127)
      rw [← index, mem_usedSlots_block real rem] at used
      rw [mem_usedSlots_block real hj] at slot
      rw [Nat.zero_add] at count
      have only := eq_of_countP_one count.symm (List.mem_range'_1.mpr ⟨Nat.zero_le _, by omega⟩) used
        (List.mem_range'_1.mpr ⟨Nat.zero_le _, by omega⟩) slot
      omega
    · rw [used_same ((ptr _).trans (if_neg here)) (same s here)]
      exact ⟨fun used => ⟨used, by omega⟩, And.left⟩
  · have held := (mem_usedSlots.mp left).1
    rw [ptr] at held
    split at held
    · exact absurd rfl held
    · rename_i other
      exact same s other held

/-- One entry is overwritten with an unused one. -/
theorem unused_entry (exclusive : Exclusive u.ref) {a j cnt : Nat} {junk : Nat → Byte} (real : (u.inodes p).ptr a ≠ -1)
    (scan : scanBlock (u.block p a) name 128 (none, 0) = .ok (some j, cnt))
    (ptr : ∀ c, (w.inodes p).ptr c = (u.inodes p).ptr c)
    (bytes : ∀ x, ¬ u.s.InMeta x → w.disk.byte x =
      blit u.disk.byte (4096 * ((u.inodes p).ptr a).toNat + 32 * j) 32 (putWord junk 28 (-1)) x) : Unused u p t w := by
  obtain ⟨hj, rfl⟩ := scan_hit names slot named real scan
  have block : (128 * a + j) / 128 = a := by omega
  have same : ∀ s, s ≠ 128 * a + j → (u.inodes p).ptr (s / 128) ≠ -1 → ∀ k < 32, w.entry p s k = u.entry p s k := by
    intro s other held
    have range := placed p _ live held
    refine entry_same (ptr _) (fun x hx => ?_)
    by_cases aside : x / 32 = s % 128
    · left
      rw [bytes _ (data_outside sound range.1 range.2 hx), blit_outside]
      by_cases here : s / 128 = a
      · rw [here]
        omega
      · have blocks : ((u.inodes p).ptr (s / 128)).toNat ≠ ((u.inodes p).ptr a).toNat := by
          intro shared
          have slots := exclusive (p, s / 128) (p, a) _ (ref_eq_some.mpr ⟨live, held, rfl⟩)
            (ref_eq_some.mpr ⟨live, real, shared.symm⟩)
          exact here (Prod.mk.inj slots).2
        omega
    · exact Or.inr aside
  have gone : entInum (w.entry p (128 * a + j)) = -1 := by
    have range := placed p a live real
    exact entInum_dropped hj (ptr a) (fun x hx => bytes _ (data_outside sound range.1 range.2 hx))
  refine ⟨fun s => ?_, fun s left => ?_, fun d low high free x hx => ?_⟩
  · by_cases here : s = 128 * a + j
    · rw [mem_usedSlots, here, gone]
      exact ⟨fun h => absurd rfl h.2, fun h => absurd rfl h.2⟩
    · rw [used_same (ptr _) (same s here)]
      exact ⟨fun used => ⟨used, here⟩, And.left⟩
  · obtain ⟨held, used⟩ := mem_usedSlots.mp left
    rw [ptr] at held
    refine same s ?_ held
    rintro rfl
    exact used gone
  · rw [bytes _ (data_outside sound low high hx), blit_outside]
    have other : ((u.inodes p).ptr a).toNat ≠ d := fun here => free a (ref_eq_some.mpr ⟨live, real, here⟩)
    omega

omit live in
/-- The slot that is overwritten, or whose block is given up, is the one that was found. -/
theorem Unlinked.unused {inum : Nat} {stk : Stack} (exclusive : Exclusive u.ref)
    (unlinked : Unlinked b u p inum name stk w) : Unused u p t w := by
  have live := unlinked.live
  cases unlinked.removed with
  | block ha before real scan ptr bits bytes => exact unused_block sound placed live names slot named real scan ptr bytes
  | entry ha before real scan more ptr bits bytes =>
    exact unused_entry sound placed live names slot named exclusive real scan ptr bytes
  | nowhere missing =>
    have real := (mem_usedSlots.mp slot).1
    obtain ⟨cnt, scan⟩ := missing _ (Inode.ptr_lt real) real
    exact absurd scan (scan_miss slot named)

end Unlink

/-- In a directory with holes an unlink that returns 0 removes the slot of its name and no
other: the rest of the slots, the other blocks and the other inodes stay. -/
theorem unlink_strikes_slot {b : Build} {u w : Ufs} {p : Nat} {name : CString} {stk : Stack} (sound : u.Sound b)
    (placed : u.Placed) (exclusive : Exclusive u.ref) (names : u.NamesDiffer p)
    (count : (u.usedSlots p).length = (u.inodes p).size.toNat / 32)
    (returned : ufsUnlink b u p name stk = .ok (0, w)) :
    ∃ t inum : Nat, t ∈ u.usedSlots p ∧ u.slotName p t = some name.chars ∧
      (entInum (u.entry p t)).toInt = inum ∧ Struck u p t inum w := by
  rcases ufsUnlink_cases sound placed returned with ⟨failed, _⟩ | ⟨_, inum, removable, unlinked⟩
  · cases failed
  · rw [Int.toNat_natCast] at unlinked
    obtain ⟨whole, t, slot, named, value⟩ := ufsLookup_found sound placed unlinked.live removable.found
    have left := unlinked.unused sound placed names slot named exclusive
    refine ⟨t, inum, slot, named, value, left.slots, left.entries, ?_, left.blocks, fun i hi => ?_, removable.empty⟩
    · have positive := List.length_pos_of_mem slot
      have smaller := (u.inodes p).size.isLt
      have word : (32 : Word).toNat = 32 := rfl
      rw [left.slots, List.length_erase_of_mem slot, unlinked.inodes.2.2.1, BitVec.toNat_sub, word]
      omega
    · rw [unlinked.s.2.2, get_reset_nat]
      by_cases same : i = inum
      · simp [same]
      · simp [same]

/-- The root has a hole between the slots of the first and the third of three files. -/
theorem unlink_strikes_slot_hole : ∃ u v w, Run (call .host) Removeless smallest
    [.creat 0 1 (letter 97 (by decide)) zeros, .creat 0 1 (letter 98 (by decide)) zeros,
      .creat 0 1 (letter 99 (by decide)) zeros] u ∧
    ufsUnlink .host u 0 (letter 98 (by decide)) zeros = .ok (0, v) ∧ v.usedSlots 0 = [0, 1, 2, 4] ∧
    ufsUnlink .host v 0 (letter 97 (by decide)) zeros = .ok (0, w) ∧ ∃ t inum, Struck v 0 t inum w := by
  obtain ⟨u, run, check⟩ := run_of_check (call .host) Removeless (fun _ c => !c.removes) smallest
    [.creat 0 1 (letter 97 (by decide)) zeros, .creat 0 1 (letter 98 (by decide)) zeros,
      .creat 0 1 (letter 99 (by decide)) zeros]
    (fun u => decide ((ufsUnlink .host u 0 (letter 98 (by decide)) zeros).map
      (fun r => (r.1, r.2.usedSlots 0, decide (([0, 1, 2, 4].map (r.2.slotName 0)).Nodup), (r.2.inodes 0).size,
        (ufsUnlink .host r.2 0 (letter 97 (by decide)) zeros).map Prod.fst)) = .ok (0, [0, 1, 2, 4], true, 128, .ok 0)))
    (fun _ c test => by cases c with | unlink => cases test | _ => trivial) (by decide +kernel)
  rw [decide_eq_true_eq] at check
  obtain ⟨⟨r, v⟩, first, same⟩ := map_ok.mp check
  simp only [Prod.mk.injEq, decide_eq_true_eq] at same
  obtain ⟨rfl, slots, strings, size, second⟩ := same
  obtain ⟨⟨r, w⟩, second, rfl⟩ := map_ok.mp second
  have names : v.NamesDiffer 0 := namesDiffer_of_nodup (slots ▸ strings)
  obtain ⟨⟨_, tidy⟩, _⟩ := Run.tidy (smallest_fresh .host) run
  have placed := tidy.owned.placed
  rcases ufsUnlink_cases tidy.sound placed first with ⟨failed, _⟩ | ⟨_, inum, _, gone⟩
  · cases failed
  · have sound : v.Sound .host := by
      rw [Ufs.Sound, gone.s.1, gone.s.2.1]
      exact tidy.sound
    have exclusive := tidy.owned.exclusive.sub (fun slot d held => (gone.keeps held).1)
    obtain ⟨t, inum, _, _, _, struck⟩ := unlink_strikes_slot (p := 0) sound (gone.placed placed) exclusive names
      (by rw [slots, size]; rfl) second
    exact ⟨u, v, w, run, first, slots, second, t, inum, struck⟩

end Icix
