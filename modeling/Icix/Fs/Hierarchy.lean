import Icix.Fs.Tree

/-! The directories that the root leads to. After any run without ufs_unlink each of
them is well formed, and the data bitmap marks exactly the blocks that are held. -/
namespace Icix
open Bytes Ownership Trees Runs

/-- Directories that used entries lead to from inode 0. -/
inductive Ufs.Reachable (u : Ufs) : Nat → Prop
  | root : Reachable u 0
  | entry {p q t : Nat} (reach : Reachable u p) (slot : 32 * t < (u.inodes p).size.toNat)
      (names : entInum (u.entry p t) = BitVec.ofNat 32 q) (inside : q < u.s.ni)
      (dir : (u.inodes q).type = ufsDirectory) : Reachable u q

/-- Directory q has an entry for p after its first two; the root is its own parent. -/
def Ufs.Parent (u : Ufs) (q p : Nat) : Prop :=
  p = 0 ∧ q = 0 ∨ p ≠ 0 ∧ u.Reachable q ∧ ∃ t, 2 ≤ t ∧ 32 * t < (u.inodes q).size.toNat ∧
    entInum (u.entry q t) = BitVec.ofNat 32 p

/-- A directory with n entries, which are in the first slots of its blocks. -/
structure Ufs.Directory (u : Ufs) (p n : Nat) : Prop where
  size : (u.inodes p).size = BitVec.ofNat 32 (32 * n)
  two_le : 2 ≤ n
  le_max : n ≤ 3840
  ptr : ∀ a, (u.inodes p).ptr a ≠ -1 ↔ a < (n + 127) / 128
  used : ∀ t < n, entInum (u.entry p t) ≠ -1
  unused : ∀ t, n ≤ t → t < 128 * ((n + 127) / 128) → entInum (u.entry p t) = -1
  self : EntryAt (u.entry p 0) [46] p
  up : ∃ q, u.Parent q p ∧ EntryAt (u.entry p 1) [46, 46] q
  named : ∀ t < n, ∃ name inum, EntryAt (u.entry p t) name inum ∧ u.allocated inum
  distinct : ∀ t < n, ∀ t' < n, ∀ name inum inum', EntryAt (u.entry p t) name inum →
    EntryAt (u.entry p t') name inum' → t = t'

theorem EntryAt.unique {m : Nat → Byte} {name name' : List Byte} {inum inum' : Nat}
    (first : EntryAt m name inum) (second : EntryAt m name' inum') : name = name' ∧ inum = inum' := by
  refine ⟨holds_unique first.holds second.holds, ?_⟩
  have value := first.used.2
  rw [second.used.2] at value
  omega

section Represents

variable {u : Ufs} {t : Dirs} {p : Nat} (rep : u.Represents t)
include rep

theorem Ufs.Represents.rooted_live (rooted : t.Rooted p) : u.allocated p := by
  cases rooted with
  | root => exact rep.root.1
  | link mem _ => exact (rep.live _ mem).2.2

/-- A directory that the tree's links lead to lists itself, the one above it, and its children. -/
theorem Ufs.Represents.rooted_dense (rooted : t.Rooted p) (dir : (u.inodes p).type = ufsDirectory) :
    ∃ q, t.above p = some q ∧ t.Rooted q ∧
      Dirs.entries t p = ([46], p) :: ([46, 46], q) :: t.children p ∧ u.Dense p (Dirs.entries t p) := by
  obtain ⟨q, above, rootedQ⟩ := rooted.above
  refine ⟨q, above, rootedQ, by simp only [Dirs.entries, Dirs.dots, above]; rfl, ?_⟩
  refine (rep.dirs p (rep.rooted_live rooted) dir).resolve_right (fun bare => ?_)
  rw [above] at bare
  cases bare.2

/-- Entries and links lead to the same directories. -/
theorem Ufs.Represents.reachable_iff : u.Reachable p ↔ t.Rooted p ∧ (u.inodes p).type = ufsDirectory := by
  constructor
  · intro reach
    induction reach with
    | root => exact ⟨.root, rep.root.2⟩
    | @entry p q k _ slot names inside dir ih =>
      refine ⟨?_, dir⟩
      obtain ⟨rooted, dirP⟩ := ih
      obtain ⟨above, _, rootedAbove, entries, dense⟩ := rep.rooted_dense rooted dirP
      rw [dense.packed.slots] at slot
      have within : k < (Dirs.entries t p).length := by omega
      have entry := dense.entries k within
      have same : (Dirs.entries t p)[k].2 = q := by
        have small := entry.small
        have bound := u.s.ni_lt
        have value := congrArg BitVec.toNat (entry.inum_eq.symm.trans names)
        rw [BitVec.toNat_ofNat, BitVec.toNat_ofNat] at value
        omega
      have mem : ((Dirs.entries t p)[k].1, q) ∈ Dirs.entries t p := same ▸ List.getElem_mem within
      generalize (Dirs.entries t p)[k].1 = name at mem
      rw [entries] at mem
      rcases List.mem_cons.mp mem with self | mem
      · exact (Prod.mk.inj self).2 ▸ rooted
      · rcases List.mem_cons.mp mem with up | child
        · exact (Prod.mk.inj up).2 ▸ rootedAbove
        · exact .link (Tree.mem_children.mp child) rooted
  · rintro ⟨rooted, dir⟩
    induction rooted with
    | root => exact .root
    | @link l mem rootedDir ih =>
      have dirType := (rep.live l mem).2.1
      obtain ⟨_, _, _, entries, dense⟩ := rep.rooted_dense rootedDir dirType
      have child : (l.name, l.node) ∈ Dirs.entries t l.dir := by
        rw [entries]
        exact List.mem_cons_of_mem _ (List.mem_cons_of_mem _ (Tree.mem_children.mpr mem))
      obtain ⟨k, within, same⟩ := List.getElem_of_mem child
      refine .entry (ih dirType) (t := k) (by rw [dense.packed.slots]; omega) ?_ ((rep.live l mem).2.2).1 dir
      rw [(dense.entries k within).inum_eq, same]

/-- The node above a rooted one is its parent. -/
theorem Ufs.Represents.parent {q : Nat} (above : t.above p = some q) (rooted : t.Rooted q) : u.Parent q p := by
  rcases Tree.above_cases above with ⟨rfl, rfl⟩ | ⟨l, mem, rfl, rfl⟩
  · exact Or.inl ⟨rfl, rfl⟩
  · have dirType := (rep.live l mem).2.1
    obtain ⟨_, _, _, entries, dense⟩ := rep.rooted_dense rooted dirType
    obtain ⟨k, within, same⟩ := List.getElem_of_mem (Tree.mem_children.mpr mem)
    have place : 2 + k < (Dirs.entries t l.dir).length := by
      rw [entries]
      simp only [List.length_cons]
      omega
    have entry := dense.entries (2 + k) place
    have value : (Dirs.entries t l.dir)[2 + k] = (l.name, l.node) := by
      have index : 2 + k = k + 1 + 1 := by omega
      simp only [entries, index, List.getElem_cons_succ, same]
    refine Or.inr ⟨t.below l mem, rep.reachable_iff.mpr ⟨rooted, dirType⟩, 2 + k, by omega, ?_, ?_⟩
    · rw [dense.packed.slots]
      omega
    · rw [entry.inum_eq, value]

theorem Ufs.Represents.entries_live (rooted : t.Rooted p) {e : List Byte × Nat} (mem : e ∈ Dirs.entries t p)
    (dir : (u.inodes p).type = ufsDirectory) : u.allocated e.2 := by
  obtain ⟨q, _, rootedQ, entries, _⟩ := rep.rooted_dense rooted dir
  rw [entries] at mem
  rcases List.mem_cons.mp mem with rfl | mem
  · exact rep.rooted_live rooted
  · rcases List.mem_cons.mp mem with rfl | child
    · exact rep.rooted_live rootedQ
    · exact (rep.live _ (Tree.mem_children.mp child)).2.2

theorem Ufs.Represents.directory (reach : u.Reachable p) : u.Directory p (Dirs.entries t p).length := by
  obtain ⟨rooted, dir⟩ := rep.reachable_iff.mp reach
  obtain ⟨q, above, rootedQ, entries, dense⟩ := rep.rooted_dense rooted dir
  have le := dense.length_le
  have length : (Dirs.entries t p).length = (t.children p).length + 2 := by rw [entries]; rfl
  have first : (Dirs.entries t p)[0] = ([46], p) := by simp only [entries, List.getElem_cons_zero]
  have second : (Dirs.entries t p)[1] = ([46, 46], q) := by
    simp only [entries, List.getElem_cons_succ, List.getElem_cons_zero]
  refine ⟨dense.size, by omega, le, fun a => ?_, fun k hk => (dense.entries k hk).used.1, dense.unused, ?_,
    ⟨q, rep.parent above rootedQ, ?_⟩, fun k hk => ?_, ?_⟩
  · rw [dense.ptr]
    omega
  · have entry := dense.entries 0 (by omega)
    rwa [first] at entry
  · have entry := dense.entries 1 (by omega)
    rwa [second] at entry
  · exact ⟨_, _, dense.entries k hk, rep.entries_live rooted (List.getElem_mem hk) dir⟩
  · intro k hk k' hk' name inum inum' entry entry'
    have here := (dense.entries k hk).unique entry
    have there := (dense.entries k' hk').unique entry'
    exact names_index (rep.names p) hk hk' (here.1.trans there.1.symm)

end Represents

/-- The calls that remove nothing. -/
def Removeless (_ : Ufs) : Call → Prop
  | .unlink .. => False
  | _ => True

/-- What a call adds to the tree: the link of a creation that was committed. -/
def added (b : Build) (u : Ufs) : Call → List (Link (List Byte) Nat)
  | .creat pinum type name stk =>
    match ufsCreat b u pinum type name stk, emptyPosInode u with
    | .ok (.committed, _), some inum => [⟨pinum.toNat, name.chars, inum⟩]
    | _, _ => []
  | _ => []

/-- The state between calls: its tree, and who holds the blocks. -/
structure Ufs.Tidy (b : Build) (u : Ufs) (t : Dirs) : Prop where
  sound : u.Sound b
  owned : u.Owned
  represents : u.Represents t

theorem Ufs.Fresh.tidy {b : Build} {u : Ufs} {stk : Stack} (fresh : u.Fresh b stk) :
    u.Tidy b (Tree.leaf (List Byte) 0) := ⟨fresh.sound, fresh.owned, fresh.represents⟩

/-- The build's strcpy leaves all of the name in an entry. The kernel's copies 5 bytes,
so what follows these has to be there already. -/
def Stored (b : Build) (name : CString) (stk : Stack) : Prop :=
  b = .kernel → name.chars.length < 2147483648 ∧
    ∀ k ≤ name.chars.length, 5 ≤ k → stk.dent k = name.mem k ∧ stk.newBlock k = name.mem k

theorem Stored.short {b : Build} {name : CString} {stk : Stack} (stored : Stored b name stk) (fits : Fits b name)
    (short : int32 name.chars.length ≤ 27) : name.chars.length ≤ 27 := by
  cases b with
  | host => exact fits rfl
  | kernel =>
    have small := (stored rfl).1
    rw [int32_eq (by omega) (by omega)] at short
    omega

theorem Stored.rest {b : Build} {name : CString} {stk : Stack} (stored : Stored b name stk) {junk : Nat → Byte}
    (from_stack : junk = stk.dent ∨ junk = stk.newBlock) {k : Nat} (le : k ≤ name.chars.length)
    (past : copied b name ≤ k) : junk k = name.mem k := by
  cases b with
  | host => exact absurd past (Nat.not_le_of_lt (Nat.lt_succ_of_le le))
  | kernel =>
    obtain ⟨dent, block⟩ := (stored rfl).2 k le past
    rcases from_stack with rfl | rfl
    · exact dent
    · exact block

namespace Ufs.Tidy

variable {b : Build} {u w : Ufs} {t : Dirs} (tidy : u.Tidy b t)
include tidy

theorem creat {pinum : Int} {type : Word} {name : CString} {stk : Stack} {r : Creat} (stored : Stored b name stk)
    (returned : ufsCreat b u pinum type name stk = .ok (r, w)) :
    ∃ t' : Dirs, t'.links = t.links ++ added b u (.creat pinum type name stk) ∧ w.Tidy b t' ∧
      (u.Tight → w.Tight) := by
  obtain ⟨sound, owned, rep⟩ := tidy
  have placed := owned.placed
  rcases ufsCreat_cases sound placed returned with ⟨rfl, rfl⟩ | ⟨inum, creatable, created⟩
  · refine ⟨t, ?_, ⟨sound, owned, rep⟩, id⟩
    simp only [added, returned, List.append_nil]
  · obtain ⟨hi, clear⟩ := emptyPosInode_some creatable.found
    have absent : ufsLookup b u pinum.toNat name = .ok (-1) := by
      rw [Int.toNat_of_nonneg creatable.low]
      exact creatable.absent
    have dense := (rep.absent sound placed creatable.live creatable.dir absent).1
    obtain ⟨step, _⟩ := created.settled sound placed creatable.live hi clear
    have soundW := step.sound sound
    have ownedW := step.owned owned
    have tight := step.tight dense.packed.spare owned
    cases r with
    | failed =>
      refine ⟨t, ?_, ⟨soundW, ownedW, rep.kept (created.sameDirectories creatable.live hi clear)⟩, tight⟩
      simp only [added, returned, List.append_nil]
    | committed =>
      obtain ⟨fits, _⟩ := created.extends sound owned creatable.live hi clear dense.packed
      obtain ⟨new, other, rep⟩ := rep.committed creatable.live creatable.dir hi clear sound owned absent
        (stored.short fits creatable.short) (fun _ junk _ le past => stored.rest junk le past) created
      refine ⟨_, ?_, ⟨soundW, ownedW, rep⟩, tight⟩
      simp only [added, returned, creatable.found]
      rfl

theorem write {inum offset nbytes r : Int} {buf : Nat → Byte}
    (returned : ufsWrite b u inum buf offset nbytes = .ok (r, w)) : w.Tidy b t ∧ (u.Tight → w.Tight) := by
  obtain ⟨sound, owned, rep⟩ := tidy
  by_cases writable : u.Writable inum offset nbytes
  · obtain ⟨r', w', run, wrote⟩ := ufsWrite_spec buf sound owned.placed writable
    rw [run] at returned
    obtain ⟨rfl, rfl⟩ := Prod.mk.inj (Except.ok.inj returned)
    have step := wrote.allocates
    exact ⟨⟨step.sound sound, step.owned owned, rep.kept (wrote.sameDirectories owned writable.regular)⟩, step.tight trivial owned⟩
  · rw [ufsWrite_unwritable writable] at returned
    obtain ⟨rfl, rfl⟩ := Prod.mk.inj (Except.ok.inj returned)
    exact ⟨⟨sound, owned, rep⟩, id⟩

end Ufs.Tidy

/-- The tree after a call of the host's is the tree before it and what the call adds. -/
theorem Ufs.Tidy.grows {u w : Ufs} {t : Dirs} {c : Call} (tidy : u.Tidy .host t) (keep : Removeless u c)
    (returned : call .host u c = .ok w) :
    ∃ t' : Dirs, t'.links = t.links ++ added .host u c ∧ w.Tidy .host t' ∧ (u.Tight → w.Tight) := by
  cases c with
  | creat pinum type name stk =>
    obtain ⟨⟨r, v⟩, run, last⟩ := Runs.bind_ok.mp returned
    cases Except.ok.inj last
    exact tidy.creat (fun kernel => by cases kernel) run
  | write inum buf offset nbytes =>
    obtain ⟨⟨r, v⟩, run, last⟩ := Runs.bind_ok.mp returned
    cases Except.ok.inj last
    exact ⟨t, (List.append_nil _).symm, tidy.write run⟩
  | read inum buffer offset nbytes =>
    obtain ⟨out, run, last⟩ := Runs.bind_ok.mp returned
    cases Except.ok.inj last
    exact ⟨t, (List.append_nil _).symm, tidy, id⟩
  | lookup pinum name =>
    obtain ⟨out, run, last⟩ := Runs.bind_ok.mp returned
    cases Except.ok.inj last
    exact ⟨t, (List.append_nil _).symm, tidy, id⟩
  | unlink => exact keep.elim

theorem Run.tidy {u₀ u : Ufs} {stk : Stack} {calls : List Call} (fresh : u₀.Fresh .host stk)
    (run : Run (call .host) Removeless u₀ calls u) : (∃ t, u.Tidy .host t) ∧ u.Tight := by
  refine run.invariant (fun v => (∃ t, v.Tidy .host t) ∧ v.Tight) ?_ ⟨⟨_, fresh.tidy⟩, fresh.tight⟩
  rintro v c w ⟨⟨t, tidy⟩, tight⟩ keep returned
  obtain ⟨t', _, tidy', kept⟩ := tidy.grows keep returned
  exact ⟨⟨t', tidy'⟩, kept tight⟩

/-- After any run without ufs_unlink every pointer is in the data region, no block is
held twice, the data bitmap marks the held blocks and no others, and every directory
that the root leads to is well formed. -/
theorem directories_well_formed {numInodes numData : Int} {stk : MkfsStack} {d : Disk}
    {dirtyInodeBp dirtyDataBp : Bitmap} {u₀ u : Ufs} {calls : List Call}
    (small : 4096 * imageBlocks numInodes.toNat numData.toNat < 2147483648)
    (formatted : mkfs numInodes numData stk = .ok d)
    (mounted : ufsInit .host d 0 dirtyInodeBp dirtyDataBp = .ok u₀)
    (run : Run (call .host) Removeless u₀ calls u) :
    (∀ i a, u.allocated i → (u.inodes i).ptr a ≠ -1 →
      u.s.dr ≤ ((u.inodes i).ptr a).toNat ∧ ((u.inodes i).ptr a).toNat < u.s.dr + u.s.nd) ∧
    (∀ i a j c, u.allocated i → u.allocated j → (u.inodes i).ptr a ≠ -1 →
      (u.inodes i).ptr a = (u.inodes j).ptr c → i = j ∧ a = c) ∧
    (∀ k < u.s.nd, getBitmap u.dataBp k = true ↔
      ∃ i a, u.allocated i ∧ ((u.inodes i).ptr a).toNat = u.s.dr + k) ∧
    ∀ p, u.Reachable p → ∃ n, u.Directory p n := by
  have fresh := fresh_of_mount small formatted mounted
  obtain ⟨⟨t, sound, owned, rep⟩, tight⟩ := Run.tidy fresh run
  refine ⟨owned.placed, fun i a j c liveI liveJ real same => ?_, fun k hk => ⟨fun bit => ?_, ?_⟩,
    fun p reach => ⟨_, rep.directory reach⟩⟩
  · have slots := owned.exclusive (i, a) (j, c) _ (ref_eq_some.mpr ⟨liveI, real, rfl⟩)
      (ref_eq_some.mpr ⟨liveJ, same ▸ real, by rw [same]⟩)
    exact Prod.mk.inj slots
  · obtain ⟨⟨i, a⟩, held⟩ := (tight (u.s.dr + k)).mp ⟨k, hk, rfl, bit⟩
    obtain ⟨live, _, value⟩ := ref_eq_some.mp held
    exact ⟨i, a, live, value⟩
  · rintro ⟨i, a, live, value⟩
    have real : (u.inodes i).ptr a ≠ -1 := by
      intro none
      have top : (-1 : Word).toNat = 4294967295 := by decide
      have last := sound.data_le
      have len := sound.disk_le
      have limit := Build.host.limit_lt
      rw [none, top] at value
      omega
    obtain ⟨k', _, same, bit⟩ := (tight (u.s.dr + k)).mpr ⟨(i, a), ref_eq_some.mpr ⟨live, real, value⟩⟩
    have index : k' = k := by omega
    exact index ▸ bit

theorem directories_well_formed_smallest : ∃ u, Run (call .host) Removeless smallest
    [.creat 0 0 (letter 97 (by decide)) zeros, .creat 1 1 (letter 98 (by decide)) zeros,
      .write 2 (fun _ => 7) 0 2] u ∧ ∀ p, u.Reachable p → ∃ n, u.Directory p n := by
  obtain ⟨u, run, _⟩ := run_of_check (call .host) Removeless
    (fun _ c => !c.removes) smallest
    [.creat 0 0 (letter 97 (by decide)) zeros, .creat 1 1 (letter 98 (by decide)) zeros,
      .write 2 (fun _ => 7) 0 2] (fun _ => true)
    (fun _ c test => by cases c with | unlink => cases test | _ => trivial) (by decide +kernel)
  exact ⟨u, run, (directories_well_formed (by decide) smallest_formatted (smallest_mounted .host) run).2.2.2⟩

end Icix
