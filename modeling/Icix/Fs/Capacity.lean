import Icix.Fs.Failure
import Icix.Fs.Names

/-! When ufs_creat has what it needs: an inode, a slot of the parent, and the blocks for
a new directory and for a parent whose blocks are full. In a parent without holes
these conditions are exact, and a creation adds its entry and no other. -/
namespace Icix
open Bytes Ownership

def Ufs.spareBlocks (u : Ufs) : Nat := (List.range u.s.nd).countP fun (k : Nat) => !getBitmap u.dataBp k

/-- The blocks that an entry of a directory with n entries takes. -/
def blocksNeeded (type : Word) (n : Nat) : Nat :=
  (if type = ufsDirectory then 1 else 0) + (if 128 ∣ n then 1 else 0)

/-- The two blocks that one pass selects are as many as there are. -/
theorem emptyPosData_count (u : Ufs) : ((emptyPosData u).1 = none ↔ u.spareBlocks = 0) ∧
    ((emptyPosData u).2 = none ↔ u.spareBlocks ≤ 1) := by
  unfold emptyPosData Ufs.spareBlocks
  generalize u.s.nd = n
  induction n with
  | zero => exact ⟨⟨fun _ => rfl, fun _ => rfl⟩, fun _ => Nat.zero_le 1, fun _ => rfl⟩
  | succ n ih =>
    rw [List.range_succ, List.foldl_append, List.foldl_cons, List.foldl_nil, List.countP_append,
      List.countP_singleton]
    generalize (List.range n).foldl _ (none, none) = found at ih ⊢
    obtain ⟨first, second⟩ := found
    cases bit : getBitmap u.dataBp n with
    | true => exact ih
    | false =>
      simp only [Bool.not_false, if_true]
      cases first with
      | none =>
        have empty : (List.range n).countP (fun (k : Nat) => !getBitmap u.dataBp k) = 0 := ih.1.mp rfl
        simp only [empty]
        exact ⟨⟨fun h => (by cases h), fun h => (by omega)⟩, fun _ => Nat.le_refl 1, fun _ => ih.2.mpr (by omega)⟩
      | some f =>
        have some : (List.range n).countP (fun (k : Nat) => !getBitmap u.dataBp k) ≠ 0 := fun zero => by cases ih.1.mpr zero
        cases second with
        | none => exact ⟨⟨fun h => (by cases h), fun h => (by omega)⟩, fun h => (by cases h), fun h => (by omega)⟩
        | some g =>
          have more := mt ih.2.mpr (fun h => by cases h)
          exact ⟨⟨fun h => (by cases h), fun h => (by omega)⟩, fun h => (by cases h), fun h => (by omega)⟩

theorem short_iff (u : Ufs) (type : Word) {full : Bool} {n : Nat} (fullness : full = true ↔ n % 128 = 0) :
    Short type full (emptyPosData u) ↔ u.spareBlocks < blocksNeeded type n := by
  obtain ⟨first, second⟩ := emptyPosData_count u
  have whole : 128 ∣ n ↔ full = true := (Nat.dvd_iff_mod_eq_zero).trans fullness.symm
  unfold Short blocksNeeded
  simp only [first, second, whole]
  by_cases dir : type = ufsDirectory
  · cases full
    · simp [dir]
    · simp [dir]
      omega
  · cases full <;> simp [dir]

/-- What a creation needs besides a short name. -/
structure Ufs.Able (b : Build) (u : Ufs) (pinum : Int) (type : Word) (name : CString) (n : Nat) : Prop where
  low : 0 ≤ pinum
  live : u.allocated pinum.toNat
  dir : (u.inodes pinum.toNat).type = ufsDirectory
  absent : ufsLookup b u pinum name = .ok (-1)
  inode : ∃ i < u.s.ni, getBitmap u.inodeBp i = false
  slot : n < 3840
  blocks : blocksNeeded type n ≤ u.spareBlocks

/-- Slot t of directory q holds an entry. -/
structure Ufs.UsedEntry (u : Ufs) (q t : Nat) : Prop where
  live : u.allocated q
  dir : (u.inodes q).type = ufsDirectory
  real : (u.inodes q).ptr (t / 128) ≠ -1
  used : entInum (u.entry q t) ≠ -1

/-- The used entries of w that are not u's: the new one, and a new directory's two. -/
structure Adds (u w : Ufs) (p n : Nat) (type : Word) (name : CString) (inum : Nat) : Prop where
  new : w.UsedEntry p n ∧ EntryAt (w.entry p n) name.chars inum
  dots : type = ufsDirectory → (w.UsedEntry inum 0 ∧ EntryAt (w.entry inum 0) [46] inum) ∧
    w.UsedEntry inum 1 ∧ EntryAt (w.entry inum 1) [46, 46] p
  only : ∀ q t, w.UsedEntry q t → q = p ∧ t = n ∨ type = ufsDirectory ∧ q = inum ∧ t < 2 ∨
    u.UsedEntry q t ∧ ∀ k < 32, w.entry q t k = u.entry q t k

theorem emptyPosInode_isSome {u : Ufs} :
    (∃ inum, emptyPosInode u = some inum) ↔ ∃ i < u.s.ni, getBitmap u.inodeBp i = false := by
  unfold emptyPosInode
  rw [← Option.isSome_iff_exists, List.find?_isSome]
  simp only [List.mem_range, Bool.not_eq_true']

theorem Ufs.Dense.usedEntry {u : Ufs} {p : Nat} {es : Entries} (dense : u.Dense p es) (live : u.allocated p)
    (dir : (u.inodes p).type = ufsDirectory) {t : Nat} (h : t < es.length) : u.UsedEntry p t :=
  ⟨live, dir, (dense.ptr _).mpr (by omega), (dense.entries t h).used.1⟩

section Capacity

variable {b : Build} {u w : Ufs} {p n inum : Nat} {type : Word} {name : CString} {stk : Stack}
  (sound : u.Sound b) (owned : u.Owned) (live : u.allocated p) (packed : u.Packed p n)
include sound owned live packed

/-- The late checks refuse a creation exactly when the parent or the blocks are used up. -/
theorem refused_iff : u.Refused b p type ↔ ¬ (n < 3840 ∧ blocksNeeded type n ≤ u.spareBlocks) := by
  obtain ⟨full, scan, meaning⟩ := isPinodeFull_ok sound owned.placed live 30 (Nat.le_refl 30)
  have fullness : full = true ↔ n % 128 = 0 := by
    rw [meaning, ← packed.full_iff]
    exact ⟨fun all a => all a (by omega), fun all a _ => all a⟩
  have large := packed.size_ne
  have late := short_iff u type fullness
  unfold Ufs.Refused
  constructor
  · rintro (max | ⟨full', scan', few⟩) ⟨room, enough⟩
    · exact large.mpr room max
    · cases Except.ok.inj (scan.symm.trans scan')
      exact absurd (late.mp few) (Nat.not_lt_of_le enough)
  · intro lacks
    by_cases room : n < 3840
    · exact Or.inr ⟨full, scan, late.mpr (Nat.lt_of_not_le (fun enough => lacks ⟨room, enough⟩))⟩
    · exact Or.inl (not_not.mp (mt large.mp room))

variable (hi : inum < u.s.ni) (clear : getBitmap u.inodeBp inum = false)
include hi clear

theorem creatAt_commits (fits : Fits b name) :
    (∃ w, creatAt b u p inum (emptyPosData u) type name stk = .ok (.committed, w)) ↔
      n < 3840 ∧ blocksNeeded type n ≤ u.spareBlocks := by
  have other := claimed_ne live clear
  rw [← not_iff_not, ← refused_iff sound owned live packed]
  constructor
  · intro never
    obtain ⟨r, w, returned, _⟩ := creatAt_returns sound owned live hi clear packed fits type stk
    cases r with
    | failed => exact (creatAt_failed other returned).1
    | committed => exact absurd ⟨w, returned⟩ never
  · rintro refused ⟨w, returned⟩
    obtain ⟨w', failed⟩ := creatAt_refused other refused name stk
    rw [returned] at failed
    cases failed

/-- Every entry of the state after a creation is one of its own or an old one. -/
theorem Created.only (dir : (u.inodes p).type = ufsDirectory) (created : Created b u p inum type name stk .committed w)
    {q t : Nat} (used : w.UsedEntry q t) : q = p ∧ t = n ∨ type = ufsDirectory ∧ q = inum ∧ t < 2 ∨
      u.UsedEntry q t ∧ ∀ k < 32, w.entry q t k = u.entry q t k := by
  obtain ⟨_, _, ⟨m, _, ext⟩, new⟩ := created.extends sound owned live hi clear packed
  have kept : u.UsedEntry q t → (q = p → t ≠ n) → ∀ k < 32, w.entry q t k = u.entry q t k := by
    intro old other k hk
    refine ext.keeps.byte q _ old.live ?_ (fun ⟨same, low, high⟩ => other same (by omega))
    have block : (32 * t + k) / 4096 = t / 128 := by omega
    exact block ▸ old.real
  by_cases new' : q = inum
  · subst q
    by_cases made : type = ufsDirectory
    · refine Or.inr (Or.inl ⟨made, rfl, ?_⟩)
      by_contra past
      have dense := (new made).packed
      have more : 128 * (t / 128) < 2 := (dense.ptr _).mp used.real
      exact used.used (dense.unused t (Nat.le_of_not_lt past) (show t < 128 * ((2 + 127) / 128) by omega))
    · exact absurd ((created.claimed live clear).1.symm.trans used.dir) made
  · have liveQ := ((created.allocated hi q).mp used.live).resolve_left new'
    by_cases parent : q = p
    · subst q
      have more := (ext.ptr (t / 128)).mp used.real
      rcases Nat.lt_trichotomy t n with before | same | after
      · have old : u.UsedEntry p t := ⟨live, dir, (packed.ptr _).mpr (by omega), packed.used t before⟩
        exact Or.inr (Or.inr ⟨old, kept old (fun _ => Nat.ne_of_lt before)⟩)
      · exact Or.inl ⟨rfl, same⟩
      · exact absurd (ext.unused t after (by omega)) used.used
    · have inode := created.other new' parent
      have real := used.real
      rw [inode] at real
      have bytes : ∀ k < 32, w.entry q t k = u.entry q t k := by
        intro k hk
        have block : (32 * t + k) / 4096 = t / 128 := by omega
        exact ext.keeps.byte q _ liveQ (block ▸ real) (fun h => parent h.1)
      have old : u.UsedEntry q t :=
        ⟨liveQ, inode ▸ used.dir, real, (entInum_congr bytes).symm.trans_ne used.used⟩
      exact Or.inr (Or.inr ⟨old, bytes⟩)

theorem Created.adds_iff (dir : (u.inodes p).type = ufsDirectory)
    (created : Created b u p inum type name stk .committed w) :
    Adds u w p n type name inum ↔ name.chars.length ≤ 27 ∧
      ∀ k ≤ name.chars.length, copied b name ≤ k → entryJunk stk n k = name.mem k := by
  obtain ⟨_, _, ⟨m, made, ext⟩, new⟩ := created.extends sound owned live hi clear packed
  rw [← made.entry_iff (Nat.lt_trans hi u.s.ni_lt)]
  constructor
  · exact fun adds => adds.new.2.congr ext.new
  · intro entry
    have entry := entry.congr (fun k hk => (ext.new k hk).symm)
    have liveW := ext.keeps.allocated p live
    have dirW := (created.parent_type live clear).trans dir
    refine ⟨⟨⟨liveW, dirW, (ext.ptr _).mpr (by omega), entry.used.1⟩, entry⟩, fun made => ?_,
      fun q t used => created.only sound owned live packed hi clear dir used⟩
    have dense := new made
    have liveI := (created.allocated hi inum).mpr (Or.inl rfl)
    have dirI := (created.claimed live clear).1.trans made
    have first := dense.usedEntry liveI dirI (t := 0) (show 0 < 2 by decide)
    have second := dense.usedEntry liveI dirI (t := 1) (show 1 < 2 by decide)
    exact ⟨⟨first, dense.entries 0 (show 0 < 2 by decide)⟩, second, dense.entries 1 (show 1 < 2 by decide)⟩

end Capacity

/-- A creation commits exactly when it has what it needs, and adds its entries only. -/
structure CreatExact (b : Build) (u : Ufs) (pinum : Int) (type : Word) (name : CString) (n : Nat) (stk : Stack) :
    Prop where
  commits : (∃ w, ufsCreat b u pinum type name stk = .ok (.committed, w)) ↔
    u.Able b pinum type name n ∧ name.chars.length ≤ 27
  adds : ∀ w, ufsCreat b u pinum type name stk = .ok (.committed, w) →
    ∃ inum, emptyPosInode u = some inum ∧ Adds u w pinum.toNat n type name inum

/-- In the kernel build, a call that has what it needs has a name that fits, and whose end from the
sixth byte on is in the buffer of the entry already. -/
def Stores (b : Build) (u : Ufs) (pinum : Int) (type : Word) (name : CString) (n : Nat) (stk : Stack) : Prop :=
  b = .kernel → u.Able b pinum type name n → int32 name.chars.length ≤ 27 →
    name.chars.length ≤ 27 ∧ ∀ k ≤ name.chars.length, 5 ≤ k → entryJunk stk n k = name.mem k

section Exactness

variable {b : Build} {u : Ufs} {pinum : Int} {type : Word} {name : CString} {n : Nat} {stk : Stack}
  (sound : u.Sound b) (owned : u.Owned) (packed : 0 ≤ pinum → u.allocated pinum.toNat →
    (u.inodes pinum.toNat).type = ufsDirectory → u.Packed pinum.toNat n)
include sound owned packed

theorem ufsCreat_commits : (∃ w, ufsCreat b u pinum type name stk = .ok (.committed, w)) ↔
    u.Able b pinum type name n ∧ int32 name.chars.length ≤ 27 ∧ Fits b name := by
  constructor
  · rintro ⟨w, returned⟩
    rcases ufsCreat_cases sound owned.placed returned with ⟨failed, _⟩ | ⟨inum, creatable, created⟩
    · cases failed
    · obtain ⟨hi, clear⟩ := emptyPosInode_some creatable.found
      have packed := packed creatable.low creatable.live creatable.dir
      obtain ⟨fits, _⟩ := created.extends sound owned creatable.live hi clear packed
      obtain ⟨slot, blocks⟩ := (creatAt_commits sound owned creatable.live packed hi clear fits).mp
        ⟨w, (creatable.ufsCreat type stk).symm.trans returned⟩
      exact ⟨⟨creatable.low, creatable.live, creatable.dir, creatable.absent,
        emptyPosInode_isSome.mp ⟨inum, creatable.found⟩, slot, blocks⟩, creatable.short, fits⟩
  · rintro ⟨able, short, fits⟩
    obtain ⟨inum, found⟩ := emptyPosInode_isSome.mpr able.inode
    obtain ⟨hi, clear⟩ := emptyPosInode_some found
    have creatable : u.Creatable b pinum name inum := ⟨able.low, able.live, able.dir, short, able.absent, found⟩
    rw [creatable.ufsCreat]
    exact (creatAt_commits sound owned able.live (packed able.low able.live able.dir) hi clear fits).mpr
      ⟨able.slot, able.blocks⟩

/-- Where the regions are sound, the host's ufs_creat fails only when it must and adds what it
should. The kernel's does so except where it commits a name that its strcpy does not store. -/
theorem creatExact_iff : CreatExact b u pinum type name n stk ↔ Stores b u pinum type name n stk := by
  have commits := @ufsCreat_commits b u pinum type name n stk sound owned packed
  have short : name.chars.length ≤ 27 → int32 name.chars.length ≤ 27 := by
    intro short
    rw [int32_eq (by omega) (by omega)]
    omega
  have adds : ∀ w, ufsCreat b u pinum type name stk = .ok (.committed, w) → ∃ inum, emptyPosInode u = some inum ∧
      (Adds u w pinum.toNat n type name inum ↔ name.chars.length ≤ 27 ∧
        ∀ k ≤ name.chars.length, copied b name ≤ k → entryJunk stk n k = name.mem k) := by
    intro w returned
    rcases ufsCreat_cases sound owned.placed returned with ⟨failed, _⟩ | ⟨inum, creatable, created⟩
    · cases failed
    · obtain ⟨hi, clear⟩ := emptyPosInode_some creatable.found
      exact ⟨inum, creatable.found, created.adds_iff sound owned creatable.live
        (packed creatable.low creatable.live creatable.dir) hi clear creatable.dir⟩
  cases b with
  | host =>
    refine ⟨fun _ kernel => (by cases kernel), fun _ => ⟨commits.trans ?_, fun w returned => ?_⟩⟩
    · exact ⟨fun h => ⟨h.1, h.2.2 rfl⟩, fun h => ⟨h.1, short h.2, fun _ => h.2⟩⟩
    · obtain ⟨inum, found, stored⟩ := adds w returned
      have fits := (commits.mp ⟨w, returned⟩).2.2 rfl
      exact ⟨inum, found, stored.mpr ⟨fits, fun k inside past => absurd past (Nat.not_le_of_lt (Nat.lt_succ_of_le inside))⟩⟩
  | kernel =>
    have fits : Fits .kernel name := fun h => by cases h
    constructor
    · intro exact _ able small
      obtain ⟨w, returned⟩ := commits.mpr ⟨able, small, fits⟩
      obtain ⟨inum, found, stored⟩ := adds w returned
      obtain ⟨inum', found', added⟩ := exact.adds w returned
      cases Option.some.inj (found.symm.trans found')
      exact stored.mp added
    · intro keeps
      have whole := keeps rfl
      refine ⟨commits.trans ⟨fun h => ⟨h.1, (whole h.1 h.2.1).1⟩, fun h => ⟨h.1, short h.2, fits⟩⟩, fun w returned => ?_⟩
      obtain ⟨inum, found, stored⟩ := adds w returned
      obtain ⟨able, small, _⟩ := commits.mp ⟨w, returned⟩
      exact ⟨inum, found, stored.mpr (whole able small)⟩

end Exactness

/-- A call that does not get past the checks of ufs_creat is exact on any disk. -/
theorem creatExact_early {b : Build} {u : Ufs} {pinum : Int} {type : Word} {name : CString} {n : Nat} {stk : Stack}
    (early : ¬ ∃ inum, u.Creatable b pinum name inum) : CreatExact b u pinum type name n stk where
  commits := by
    refine iff_of_false (fun ⟨w, returned⟩ => ?_) (fun ⟨able, short⟩ => early ?_)
    · cases (ufsCreat_early early returned).1
    · obtain ⟨inum, found⟩ := emptyPosInode_isSome.mpr able.inode
      have small : int32 name.chars.length ≤ 27 := by
        rw [int32_eq (by omega) (by omega)]
        omega
      exact ⟨inum, able.low, able.live, able.dir, small, able.absent, found⟩
  adds w returned := by cases (ufsCreat_early early returned).1

/- A disk whose inode table lies where the root directory has its block. -/
def overlapping : Ufs :=
  { smallest with s := { smallest.s with inodeRegionAddr := smallest.s.dataRegionAddr } }

/-- There the host's commit writes inodes over the new entry. -/
theorem creat_overwrites_entry : overlapping.Owned ∧ overlapping.Packed 0 2 ∧
    ¬ CreatExact .host overlapping (0 : Nat) 1 (letter 97 (by decide)) 2 zeros := by
  have fresh := smallest_fresh .host
  have packed : smallest.Packed 0 2 := fresh.dense.packed
  refine ⟨⟨fresh.owned.exclusive, fresh.owned.covered⟩,
    ⟨packed.size, packed.length_le, packed.ptr, packed.used, packed.unused⟩, fun exact => ?_⟩
  have check : (ufsCreat .host overlapping (0 : Nat) 1 (letter 97 (by decide)) zeros).map (fun out =>
      (out.1, decide (Holds (out.2.entry 0 2) (letter 97 (by decide)).chars))) = .ok (.committed, false) := by decide +kernel
  obtain ⟨⟨r, w⟩, returned, same⟩ := Runs.map_ok.mp check
  simp only [Prod.mk.injEq, decide_eq_false_iff_not] at same
  obtain ⟨rfl, lost⟩ := same
  obtain ⟨inum, _, adds⟩ := exact.adds w returned
  exact lost adds.new.2.holds

end Icix
