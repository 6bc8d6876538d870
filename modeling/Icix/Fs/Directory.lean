import Icix.Fs.Creat
import Icix.Libc.Order

/-! Directories as lists of entries. A dense directory has its entries in the first
slots of its blocks, as many as its size says, and unused ones after them; then
ufs_lookup is the lookup of the list. -/
namespace Icix
open Bytes Ownership

theorem strcmp_holds {lim : Nat} {s t : Nat → Byte} {cs ds : List Byte} (hs : Holds s cs) (ht : Holds t ds)
    (within : cs.length < lim ∨ ds.length < lim) : ∃ r, strcmp lim s t = some r ∧ (r = 0 ↔ cs = ds) :=
  ⟨_, strcmp_eq hs ht within, difference_zero_iff (holds_nonzero hs) (holds_nonzero ht)⟩

/-- Strings that compare equal are one string, and its NUL is in reach. -/
theorem strcmp_zero {lim : Nat} {s t : Nat → Byte} (zero : strcmp lim s t = some 0) :
    ∃ cs, Holds s cs ∧ Holds t cs ∧ cs.length < lim := by
  induction lim generalizing s t with
  | zero => cases zero
  | succ lim ih =>
    unfold strcmp at zero
    split at zero
    · rename_i go
      obtain ⟨cs, hs, ht, short⟩ := ih zero
      exact ⟨s 0 :: cs, ⟨rfl, go.1, hs⟩, ⟨go.2.symm, go.1, ht⟩, Nat.succ_lt_succ short⟩
    · rename_i stop
      have same : s 0 = t 0 := by
        refine BitVec.eq_of_toNat_eq ?_
        have difference := Option.some.inj zero
        omega
      have nul : s 0 = 0 := by
        by_contra more
        exact stop ⟨more, same⟩
      exact ⟨[], nul, same.symm.trans nul, Nat.succ_pos lim⟩

/-- A directory entry in memory: its name with a NUL inside the name field, and the
number of an inode. -/
structure EntryAt (m : Nat → Byte) (name : List Byte) (inum : Nat) : Prop where
  holds : Holds m name
  short : name.length ≤ 27
  inum_eq : entInum m = BitVec.ofNat 32 inum
  small : inum < 2147483648

theorem entInum_congr {m n : Nat → Byte} (same : ∀ k < 32, m k = n k) : entInum m = entInum n :=
  word_congr (fun k hk => same (28 + k) (by omega))

theorem EntryAt.congr {m n : Nat → Byte} {name : List Byte} {inum : Nat} (same : ∀ k < 32, m k = n k)
    (entry : EntryAt m name inum) : EntryAt n name inum where
  holds := holds_congr (fun k hk => same k (by have := entry.short; omega)) entry.holds
  short := entry.short
  inum_eq := (entInum_congr same).symm.trans entry.inum_eq
  small := entry.small

theorem EntryAt.used {m : Nat → Byte} {name : List Byte} {inum : Nat} (entry : EntryAt m name inum) :
    entInum m ≠ -1 ∧ (entInum m).toInt = inum := by
  have small := entry.small
  have value : (entInum m).toInt = inum := by
    rw [entry.inum_eq, BitVec.toInt_ofNat']
    exact int32_eq (by omega) (by omega)
  refine ⟨fun none => ?_, value⟩
  rw [none] at value
  have negative : (-1 : Word).toInt = -1 := by decide
  omega

/- The t-th entry of directory p, in block t / 128. -/
def Ufs.entry (u : Ufs) (p t : Nat) : Nat → Byte := fun k => u.fileByte p (32 * t + k)

theorem block_entry (u : Ufs) (p a : Nat) {j k : Nat} (hj : j < 128) (hk : k < 32) :
    view (u.block p a) (32 * j) k = u.entry p (128 * a + j) k := by
  have block : (32 * (128 * a + j) + k) / 4096 = a := by omega
  have rem : (32 * (128 * a + j) + k) % 4096 = 32 * j + k := by omega
  simp only [Ufs.entry, Ufs.fileByte, block, rem, Ufs.block, view_apply]

/-- A read of the t-th entry that a file has a block for, whatever its type. -/
theorem ufsRead_turn {b : Build} {u : Ufs} {p t : Nat} (sound : u.Sound b) (placed : u.Placed) (live : u.allocated p)
    (size : ((32 * (t + 1) : Nat) : Int) ≤ (u.inodes p).size.toInt) (real : (u.inodes p).ptr (t / 128) ≠ -1)
    (et : Nat → Byte) :
    ∃ out, ufsRead b u p et ((32 * t : Nat) : Int) 32 = .ok (0, out) ∧ ∀ k < 32, out k = u.entry p t k := by
  have within := Inode.ptr_lt real
  have bound := live.1
  unfold Super.ni at bound
  have readable : u.Readable p ((32 * t : Nat) : Int) 32 := by
    refine ⟨by omega, by omega, live.2, by omega, by decide, ?_, fun _ => ?_⟩
    · rw [int32_eq (by omega) (by omega), Int.toNat_natCast]
      omega
    · rw [Int.toNat_natCast]
      omega
  have mapped : (u.inodes p).mapped (32 * t) 0 32 := by
    intro k _ high _
    have block : (32 * t + k) / 4096 = t / 128 := by omega
    exact block ▸ real
  refine ⟨_, @ufsRead_ok b u p _ 32 et sound placed readable mapped, fun k hk => ?_⟩
  have range : 0 ≤ k ∧ k < 32 ∧ 32 * t + k < 122880 := by omega
  exact if_pos range

abbrev Entries := List (List Byte × Nat)

/-- Directory p has the entries es, in this order and without holes. -/
structure Ufs.Dense (u : Ufs) (p : Nat) (es : Entries) : Prop where
  size : (u.inodes p).size = BitVec.ofNat 32 (32 * es.length)
  length_le : es.length ≤ 3840
  ptr : ∀ a, (u.inodes p).ptr a ≠ -1 ↔ 128 * a < es.length
  entries : ∀ t (h : t < es.length), EntryAt (u.entry p t) es[t].1 es[t].2
  unused : ∀ t, es.length ≤ t → t < 128 * ((es.length + 127) / 128) → entInum (u.entry p t) = -1

/-- ufs_lookup finds an inode number only where its search does, in a directory whose size is
that of entries. -/
theorem lookup_ok {b : Build} {u : Ufs} {pinum : Int} {name : CString} {inum : Nat}
    (found : ufsLookup b u pinum name = .ok inum) :
    (u.inodes pinum.toNat).type = ufsDirectory ∧ (u.inodes pinum.toNat).size.toNat % 32 = 0 ∧
      lookupBlocks b u.disk name (u.inodes pinum.toNat) 30 (dirEntCnt b (u.inodes pinum.toNat).size) = .ok inum := by
  rw [lookup_checks] at found
  split at found
  · exact absurd (Except.ok.inj found) (by omega)
  · split at found
    · exact absurd (Except.ok.inj found) (by omega)
    · split at found
      · exact absurd (Except.ok.inj found) (by omega)
      · rename_i dir
        split at found
        · cases found
        · rename_i whole
          exact ⟨not_not.mp dir, not_not.mp whole, found⟩

/- The checks pass in an allocated directory. -/
theorem lookup_open {b : Build} {u : Ufs} {p : Nat} (live : u.allocated p) (dir : (u.inodes p).type = ufsDirectory)
    (name : CString) :
    ufsLookup b u p name =
      if (u.inodes p).size.toNat % 32 ≠ 0 then
        .error (.exit "ufs_lookup inode size not divisible by dir_ent_t size, probably corrupted")
      else lookupBlocks b u.disk name (u.inodes p) 30 (dirEntCnt b (u.inodes p).size) := by
  have bound := live.1
  unfold Super.ni at bound
  rw [lookup_checks]
  rw [if_neg (by omega), if_neg (by simp [live.2])]
  simp only [Int.toNat_natCast, dir, ne_eq, not_true, if_false]

section Lookup

variable (name : CString)

/-- One block: the entry found among its left entries, or what is left to compare. -/
theorem lookupBlock_spec (b : Build) (d : Disk) (left cursor : Nat) {rest : Entries} (more : rest ≠ [])
    (inside : cursor + 32 * left ≤ d.len)
    (entries : ∀ t (h : t < rest.length), t < left → EntryAt (view d.byte (cursor + 32 * t)) rest[t].1 rest[t].2) :
    lookupBlock b d name left cursor rest.length =
      match (rest.take left).lookup name.chars with
      | some inum => .ok (.inl inum)
      | none => .ok (.inr (rest.drop left).length) := by
  induction left generalizing cursor rest with
  | zero => rfl
  | succ left ih =>
    obtain ⟨⟨first, inum⟩, rest, rfl⟩ := List.exists_cons_of_ne_nil more
    have entry : EntryAt (view d.byte cursor) first inum := entries 0 (Nat.succ_pos _) (Nat.succ_pos _)
    have read : d.read cursor 32 = some (view d.byte cursor) := if_pos (by omega)
    have short : name.chars.length < 32 ∨ first.length < 32 := Or.inr (by have := entry.short; omega)
    obtain ⟨r, run, zero⟩ := strcmp_holds name.holds entry.holds short
    rw [lookupBlock_succ]
    simp only [read, if_neg entry.used.1, run, entry.used.2, List.take_succ_cons, List.lookup_cons, List.drop_succ_cons]
    by_cases found : name.chars = first
    · rw [if_pos (zero.mpr found)]
      simp [found]
    · have differs : (name.chars == first) = false := by simpa using found
      rw [if_neg (mt zero.mp found), differs]
      simp only [List.length_cons]
      cases rest with
      | nil => simp
      | cons e rest =>
        have count : ((e :: rest).length + 1 : Nat) - (1 : Int) = (e :: rest).length := by omega
        rw [count, if_neg (by rw [List.length_cons]; omega)]
        refine ih (cursor + 32) (by simp) (by omega) (fun t h lt => ?_)
        have entry := entries (t + 1) (by simpa using h) (by omega)
        have addr : cursor + 32 * (t + 1) = cursor + 32 + 32 * t := by omega
        rw [addr] at entry
        exact entry

variable {b : Build} {u : Ufs} {p : Nat} {es : Entries} (sound : u.Sound b) (placed : u.Placed)
  (live : u.allocated p) (dense : u.Dense p es)
include sound placed live dense

theorem lookupBlocks_spec {left : Nat} (le : left ≤ 30) :
    lookupBlocks b u.disk name (u.inodes p) left (es.drop (128 * (30 - left))).length =
      match (es.drop (128 * (30 - left))).lookup name.chars with
      | some inum => .ok inum
      | none => .ok (-1) := by
  induction left with
  | zero =>
    have none : es.drop (128 * (30 - 0)) = [] := List.drop_eq_nil_of_le (by have := dense.length_le; omega)
    rw [none]
    rfl
  | succ left ih =>
    have index : 30 - (left + 1) = 29 - left := by omega
    rw [index]
    by_cases empty : es.drop (128 * (29 - left)) = []
    · rw [empty]
      rfl
    · have more : 128 * (29 - left) < es.length := by
        by_contra past
        exact empty (List.drop_eq_nil_of_le (by omega))
      have real := (dense.ptr (29 - left)).mpr more
      have last := held_end placed live real sound
      have addr := held_addr placed live real sound (by decide : 0 < 4096)
      rw [show BitVec.ofNat 32 0 = 0#32 from rfl, BitVec.add_zero, Nat.add_zero] at addr
      have inside : ((u.inodes p).ptr (29 - left) * 4096).toNat < u.disk.len := by
        rw [addr]
        omega
      have seek := @lseek_unsigned b _ _ inside
      rw [addr] at seek
      have block := lookupBlock_spec name b u.disk 128 (4096 * ((u.inodes p).ptr (29 - left)).toNat) empty last (fun t h lt => by
          rw [List.getElem_drop]
          have entry := dense.entries (128 * (29 - left) + t) (by rw [List.length_drop] at h; omega)
          refine entry.congr (fun k hk => ?_)
          rw [← block_entry u p (29 - left) lt hk]
          simp only [Ufs.block, view_apply, Nat.add_assoc])
      have rest : (es.drop (128 * (29 - left))).drop 128 = es.drop (128 * (30 - left)) := by
        rw [List.drop_drop]
        congr 1
        omega
      have split := @List.lookup_append _ _ _ ((es.drop (128 * (29 - left))).take 128)
        ((es.drop (128 * (29 - left))).drop 128) name.chars
      rw [List.take_append_drop] at split
      rw [lookupBlocks_succ, if_neg (by rw [List.length_drop]; omega)]
      simp only [addr, seek, block]
      cases here : ((es.drop (128 * (29 - left))).take 128).lookup name.chars with
      | some inum =>
        rw [here] at split
        rw [split]
        rfl
      | none =>
        rw [here, Option.none_or, rest] at split
        rw [split]
        simp only [Runs.ok_bind, rest]
        exact ih (by omega)

/-- A lookup in a dense directory never aborts and is the lookup of its list. -/
theorem ufsLookup_dense (dir : (u.inodes p).type = ufsDirectory) :
    ufsLookup b u p name = match es.lookup name.chars with
      | some inum => .ok inum
      | none => .ok (-1) := by
  have le := dense.length_le
  have words : (BitVec.ofNat 32 (32 * es.length)).toNat = 32 * es.length := by
    rw [BitVec.toNat_ofNat]
    omega
  have value : (BitVec.ofNat 32 (32 * es.length)).toInt = ((32 * es.length : Nat) : Int) := by
    rw [BitVec.toInt_ofNat']
    exact int32_eq (by omega) (by omega)
  have count : dirEntCnt b (u.inodes p).size = es.length := by
    rw [dirEntCnt, dense.size, value, sizeT_ok b (by omega), Nat.mul_div_cancel_left _ (Nat.succ_pos 31)]
    exact int32_eq (by omega) (by omega)
  have whole : ¬ (u.inodes p).size.toNat % 32 ≠ 0 := by
    rw [dense.size, words]
    omega
  have blocks := lookupBlocks_spec name sound placed live dense (Nat.le_refl 30)
  rw [Nat.sub_self, Nat.mul_zero, List.drop_zero] at blocks
  rw [lookup_open live dir, if_neg whole, count]
  exact blocks

end Lookup

/-- A directory that a failed creation has left without a block, but with an old size. -/
def Ufs.Blank (u : Ufs) (p : Nat) : Prop := (∀ a, (u.inodes p).ptr a = -1) ∧ (u.inodes p).size ≠ 0

theorem dirEntCnt_ne (b : Build) {size : Word} (nonzero : size ≠ 0) (whole : size.toNat % 32 = 0) :
    dirEntCnt b size ≠ 0 := by
  intro zero
  unfold dirEntCnt int32 at zero
  have bound := size.isLt
  have positive : size.toNat ≠ 0 := fun same => nonzero (BitVec.eq_of_toNat_eq same)
  have divides := Int.dvd_of_bmod_eq_zero zero
  have value := BitVec.toInt_eq_toNat_cond size
  cases b with
  | host =>
    simp only [sizeT] at divides
    split at value <;> omega
  | kernel =>
    simp only [sizeT, toInt_mod] at divides
    omega

/-- A lookup in such a directory does not return. -/
theorem Ufs.Blank.lookup {b : Build} {u : Ufs} {p : Nat} (blank : u.Blank p) (sound : u.Sound b)
    (live : u.allocated p) (dir : (u.inodes p).type = ufsDirectory) (name : CString) :
    ∃ message, ufsLookup b u p name = .error (.exit message) := by
  rw [lookup_open live dir]
  split
  · exact ⟨_, rfl⟩
  · rename_i whole
    have count := dirEntCnt_ne b blank.2 (by omega)
    have addr : ((-1 : Word) * 4096).toNat = 4294963200 := by decide
    have len := sound.disk_le
    have limit : b.limit ≤ 4294963200 := by cases b <;> decide
    rw [lookupBlocks_succ, if_neg count]
    simp only [blank.1, addr]
    cases seek : u.disk.lseek b (4294963200 : Nat) with
    | none => exact ⟨_, rfl⟩
    | some cursor =>
      have past : cursor = 4294963200 := by
        cases b with
        | host => exact (Option.some.inj seek).symm
        | kernel =>
          simp only [Disk.lseek] at seek
          split at seek
          · exact (Option.some.inj seek).symm
          · cases seek
      have read : u.disk.read cursor 32 = none := if_neg (by omega)
      simp only [lookupBlock_succ, read]
      exact ⟨_, rfl⟩

end Icix
