import Icix.Library.Cycles
import Icix.Fs.Contents
import Icix.Fs.Hierarchy
import Icix.Libc.Decimal

/-! Where print_fs_contents descends to, in the states that creations and writes reach. From
a directory it is to one that was created in it, whatever the build has left of its name.
From other files it is wherever their bytes say. -/
namespace Icix
open Bytes Runs Fuel Cycles Ownership Relation

/-- An entry of directory p: "." or "..", or for something that is below p. -/
def EntryBelow (below : Nat → Nat → Prop) (p : Nat) (m : Nat → Byte) : Prop :=
  m 0 = Libc.ch '.' ∨ ∃ q, entInum m = BitVec.ofNat 32 q ∧ below p q

/-- The entries of all directories are for what is below them, and nothing is below itself. -/
structure Ufs.Hangs (u : Ufs) (below : Nat → Nat → Prop) : Prop where
  acyclic : Acyclic below
  live : ∀ p q, below p q → u.allocated p ∧ u.allocated q
  dirs : ∀ p, u.allocated p → (u.inodes p).type = ufsDirectory →
    u.Blank p ∨ ∃ n, u.Packed p n ∧ ∀ t < n, EntryBelow below p (u.entry p t)

theorem EntryBelow.congr {below : Nat → Nat → Prop} {p : Nat} {m n : Nat → Byte} (same : ∀ k < 32, m k = n k)
    (entry : EntryBelow below p m) : EntryBelow below p n := by
  rcases entry with dot | ⟨q, inum, edge⟩
  · exact .inl ((same 0 (by decide)).symm.trans dot)
  · exact .inr ⟨q, (entInum_congr same).symm.trans inum, edge⟩

theorem EntryBelow.mono {below more : Nat → Nat → Prop} {p : Nat} {m : Nat → Byte}
    (grows : ∀ q, below p q → more p q) (entry : EntryBelow below p m) : EntryBelow more p m :=
  entry.imp_right fun ⟨q, inum, edge⟩ => ⟨q, inum, grows q edge⟩

/-- The names "." and ".." are those of a directory's own two entries. -/
theorem EntryAt.below {below : Nat → Nat → Prop} {p inum : Nat} {m : Nat → Byte} {name : List Byte}
    (entry : EntryAt m name inum) (own : name = [46] ∨ name = [46, 46]) : EntryBelow below p m := by
  left
  rcases own with rfl | rfl
  · exact entry.holds.1
  · exact entry.holds.1

namespace Ufs.Hangs

variable {b : Build} {u w : Ufs} {below : Nat → Nat → Prop} (hangs : u.Hangs below)
include hangs

theorem kept (same : u.SameDirectories w) : w.Hangs below := by
  obtain ⟨keeps, inode, new⟩ := same
  refine ⟨hangs.acyclic, fun p q edge => ?_, fun p live dir => ?_⟩
  · obtain ⟨parent, child⟩ := hangs.live p q edge
    exact ⟨keeps.allocated p parent, keeps.allocated q child⟩
  · rcases new p live dir with ⟨old, dirU⟩ | ⟨_, empty⟩
    · rcases hangs.dirs p old dirU with blank | ⟨n, packed, entries⟩
      · refine .inl ?_
        rw [Ufs.Blank, inode p old dirU]
        exact blank
      · refine .inr ⟨n, packed.keeps old keeps (inode p old dirU) (fun _ skip => skip dirU), fun t inside => ?_⟩
        refine (entries t inside).congr (fun k hk => (keeps.byte p _ old (packed.real ?_ hk) (fun skip => skip dirU)).symm)
        omega
    · by_cases size : (w.inodes p).size = 0
      · refine .inr ⟨0, ⟨size, by decide, fun a => ?_, fun t early => absurd early (Nat.not_lt_zero t), ?_⟩, ?_⟩
        · simp [empty a]
        · intro t _ early
          simp at early
        · exact fun t early => absurd early (Nat.not_lt_zero t)
      · exact .inl ⟨empty, size⟩

/-- A creation that commits hangs one more inode below its directory. -/
theorem committed {p inum : Nat} {type : Word} {name : CString} {stk : Stack} (live : u.allocated p)
    (dir : (u.inodes p).type = ufsDirectory) (hi : inum < u.s.ni) (clear : getBitmap u.inodeBp inum = false)
    (sound : u.Sound b) (owned : u.Owned) (absent : ufsLookup b u p name = .ok (-1))
    (created : Created b u p inum type name stk .committed w) :
    w.Hangs (fun x y => below x y ∨ x = p ∧ y = inum) := by
  have free : ¬ u.allocated inum := fun h => Bool.noConfusion (clear.symm.trans h.2)
  have apart := claimed_ne live clear
  have small : inum < 2147483648 := Nat.lt_trans hi u.s.ni_lt
  rcases hangs.dirs p live dir with blank | ⟨n, packed, entries⟩
  · obtain ⟨message, fault⟩ := blank.lookup sound live dir name
    rw [fault] at absent
    cases absent
  obtain ⟨_, room, ⟨m, made, ext⟩, newDir⟩ := created.extends sound owned live hi clear packed
  have used : entInum m ≠ -1 := by
    intro none
    have value := congrArg BitVec.toNat (made.inum_eq.symm.trans none)
    have ones : (-1 : Word).toNat = 4294967295 := by decide
    rw [BitVec.toNat_ofNat, ones] at value
    omega
  refine ⟨hangs.acyclic.insert (fun c edge => free (hangs.live inum c edge).1) apart, ?_, fun q liveQ dirQ => ?_⟩
  · rintro x y (edge | ⟨rfl, rfl⟩)
    · obtain ⟨parent, child⟩ := hangs.live x y edge
      exact ⟨ext.keeps.allocated x parent, ext.keeps.allocated y child⟩
    · exact ⟨ext.keeps.allocated x live, (created.allocated hi y).mpr (.inl rfl)⟩
  · by_cases claimed : q = inum
    · subst q
      have dense := newDir ((created.claimed live clear).1.symm.trans dirQ)
      refine .inr ⟨2, dense.packed, fun t inside => (dense.entries t inside).below ?_⟩
      have two : t = 0 ∨ t = 1 := by omega
      rcases two with rfl | rfl
      · exact .inl rfl
      · exact .inr rfl
    · have old := ((created.allocated hi q).mp liveQ).resolve_left claimed
      by_cases parent : q = p
      · subst q
        refine .inr ⟨n + 1, ext.packed live packed room used, fun t inside => ?_⟩
        by_cases before : t < n
        · refine ((entries t before).congr (fun k hk => ?_)).mono (fun _ => .inl)
          exact (ext.keeps.byte p _ live (packed.real (by omega) hk) (by omega)).symm
        · have last : t = n := by omega
          subst t
          exact .inr ⟨inum, (entInum_congr ext.new).trans made.inum_eq, .inr ⟨rfl, rfl⟩⟩
      · have inode := created.other claimed parent
        rcases hangs.dirs q old (inode ▸ dirQ) with blank | ⟨k, packedQ, entriesQ⟩
        · refine .inl ?_
          rw [Ufs.Blank, inode]
          exact blank
        · refine .inr ⟨k, packedQ.keeps old ext.keeps inode (fun x skip => parent skip.1), fun t inside => ?_⟩
          refine ((entriesQ t inside).congr (fun x hx => ?_)).mono (fun _ => .inl)
          exact (ext.keeps.byte q _ old (packedQ.real (by omega) hx) (fun skip => parent skip.1)).symm

/-- From a directory print_fs_contents descends to what is below it. -/
theorem leads {p q : Nat} (dir : (u.inodes p).type = ufsDirectory) (leads : u.Leads p q) : below p q := by
  obtain ⟨live, t, size, used, name, target⟩ := leads
  rcases hangs.dirs p live dir with blank | ⟨n, packed, entries⟩
  · exact absurd (blank.1 (0 / 128)) (used 0 (Nat.zero_le t)).1
  · have le := packed.length_le
    have value : (BitVec.ofNat 32 (32 * n)).toInt = ((32 * n : Nat) : Int) := by
      rw [BitVec.toInt_ofNat']
      exact int32_eq (by omega) (by omega)
    rw [packed.size, value] at size
    have inside : t < n := by omega
    rcases entries t inside with dot | ⟨q', inum, edge⟩
    · exact absurd (dot.symm.trans name) (by decide)
    · have small := Nat.lt_trans (hangs.live p q' edge).2.1 u.s.ni_lt
      rw [inum, BitVec.toInt_ofNat'] at target
      have same : (q' : Int) = q := (int32_eq (by omega) (by omega)).symm.trans target
      exact (Int.ofNat.inj same) ▸ edge

/-- What a call without a removal leaves still hangs together. -/
theorem step {c : Call} (sound : u.Sound b) (owned : u.Owned) (keep : Removeless u c)
    (returned : call b u c = .ok w) : w.Sound b ∧ w.Owned ∧ ∃ more, w.Hangs more := by
  have effect := call_effect sound owned.placed returned
  refine ⟨effect.sound sound owned.placed, ?_⟩
  cases effect with
  | none => exact ⟨owned, below, hangs⟩
  | @creat pinum type name stk inum r w creatable created =>
    obtain ⟨hi, clear⟩ := emptyPosInode_some creatable.found
    refine ⟨(created.settled sound owned.placed creatable.live hi clear).1.owned owned, ?_⟩
    cases r with
    | failed => exact ⟨below, hangs.kept (created.sameDirectories creatable.live hi clear)⟩
    | committed =>
      have absent : ufsLookup b u pinum.toNat name = .ok (-1) := by
        rw [Int.toNat_of_nonneg creatable.low]
        exact creatable.absent
      exact ⟨_, hangs.committed creatable.live creatable.dir hi clear sound owned absent created⟩
  | write writable wrote =>
    exact ⟨wrote.allocates.owned owned, below, hangs.kept (wrote.sameDirectories owned writable.regular)⟩
  | unlink => exact keep.elim

end Ufs.Hangs

theorem Ufs.Fresh.hangs {b : Build} {u : Ufs} {stk : Stack} (fresh : u.Fresh b stk) : u.Hangs (fun _ _ => False) := by
  refine ⟨fun a cycle => ?_, fun p q edge => edge.elim, fun p live _ => ?_⟩
  · obtain ⟨c, edge, _⟩ := TransGen.head'_iff.mp cycle
    exact edge
  · have root := (fresh.allocated p).mp live
    subst p
    refine .inr ⟨2, fresh.dense.packed, fun t inside => (fresh.dense.entries t inside).below ?_⟩
    have two : t = 0 ∨ t = 1 := by omega
    rcases two with rfl | rfl
    · exact .inl rfl
    · exact .inr rfl

/-- Without removals no run makes directories a cycle. -/
theorem Run.hangs {b : Build} {u₀ u : Ufs} {stk : Stack} {calls : List Call} (fresh : u₀.Fresh b stk)
    (run : Run (call b) Removeless u₀ calls u) : u.Sound b ∧ u.Owned ∧ ∃ below, u.Hangs below :=
  run.invariant (fun v => v.Sound b ∧ v.Owned ∧ ∃ below, v.Hangs below)
    (fun _ _ _ ⟨sound, owned, _, hangs⟩ keep returned => hangs.step sound owned keep returned)
    ⟨fresh.sound, fresh.owned, _, fresh.hangs⟩

/-- The kernel reads disks of either build. -/
theorem Super.Sound.kernel {b : Build} {s : Super} {len : Nat} (sound : s.Sound b len) : s.Sound .kernel len :=
  { sound with
    disk_le := by
      have le := sound.disk_le
      cases b with
      | host => exact le.trans (by decide)
      | kernel => exact le }

/-- None of the files that print_fs_contents takes for directories is reached again from itself. -/
def Ufs.Unlooped (u : Ufs) : Prop :=
  ∀ p, ReflTransGen u.Leads 0 p → (u.inodes p).type ≠ ufsDirectory → ¬ TransGen u.Leads p p

/-- No file is taken for a directory where directories have only directories by such names. -/
theorem unlooped_of_directories {u : Ufs} (root : (u.inodes 0).type = ufsDirectory)
    (only : ∀ p q, (u.inodes p).type = ufsDirectory → u.Leads p q → (u.inodes q).type = ufsDirectory) : u.Unlooped := by
  intro p reached other
  refine absurd ?_ other
  induction reached with
  | refl => exact root
  | tail _ leads ih => exact only _ _ (by_contra fun file => absurd (ih file) file) leads

/-- Only the inodes lead anywhere. -/
theorem leads_finite (u : Ufs) : {p | ReflTransGen u.Leads 0 p ∧ ∃ q, u.Leads p q}.Finite :=
  (Set.finite_lt_nat u.s.ni).subset fun _ ⟨_, _, leads⟩ => leads.1.1

/-- Where the directories hang together the descents end if no other file is on a cycle of them. -/
theorem Ufs.Hangs.descents {u : Ufs} {below : Nat → Nat → Prop} (hangs : u.Hangs below) (unlooped : u.Unlooped) :
    Acc (fun q p => u.Leads p q) 0 := by
  refine acc_of_finite (leads_finite u) (fun p reached => ?_)
  exact @cycle_free _ _ below 0 (fun p => (u.inodes p).type = ufsDirectory) hangs.acyclic
    (fun _ _ _ dir leads => hangs.leads dir leads) unlooped p reached

section Run

variable {b : Build} {numInodes numData : Int} {stk : MkfsStack} {d : Disk} {dirtyInodeBp dirtyDataBp : Bitmap}
  {u₀ u : Ufs} {calls : List Call}
  (small : 4096 * imageBlocks numInodes.toNat numData.toNat < 2147483648)
  (formatted : mkfs numInodes numData stk = .ok d)
  (mounted : ufsInit b d 0 dirtyInodeBp dirtyDataBp = .ok u₀)
  (run : Run (call b) Removeless u₀ calls u)
include small formatted mounted run

/-- After any run of creations and writes print_fs_contents ends at the root if no file that is
not a directory leads back to itself, and only then, unless it aborts before. -/
theorem print_contents_ends {σ : Type} (con : Console) (malloc : σ → Word → Except Fault σ) (s : σ) :
    (u.Unlooped → Ends (fun fuel => printFsContents con (u.services .kernel malloc) fuel 0 s)) ∧
    (Ends (fun fuel => printFsContents con (u.services .kernel malloc) fuel 0 s) →
      (∀ fuel, Faultless (printFsContents con (u.services .kernel malloc) fuel 0 s)) → u.Unlooped) := by
  obtain ⟨sound, owned, below, hangs⟩ := Run.hangs (fresh_of_mount small formatted mounted) run
  constructor
  · intro unlooped
    exact printFsContents_ends sound.kernel owned.placed con malloc (p := 0) (hangs.descents unlooped) s
  · intro ends clean p reached _
    obtain ⟨fuel, out, returned⟩ := ends.returns clean
    have paths := acc_of_returns sound.kernel owned.placed con (p := 0) returned
    exact not_cycle_of_acc (acc_reached paths reached)

end Run

theorem print_contents_ends_nested : ∃ u, Run (call .host) Removeless smallest
    [.creat 0 0 (letter 100 (by decide)) zeros, .creat 1 1 (letter 97 (by decide)) zeros,
      .write 2 (fun _ => 100) 0 32] u ∧
    ∀ con, Ends (fun fuel => printFsContents con (u.services .kernel fun heap _ => .ok heap) fuel 0 ()) := by
  obtain ⟨u, run, check⟩ := run_of_check (call .host) Removeless (fun _ c => !c.removes) smallest
    [.creat 0 0 (letter 100 (by decide)) zeros, .creat 1 1 (letter 97 (by decide)) zeros,
      .write 2 (fun _ => 100) 0 32]
    (fun u => (decide (u.s.ni = 32) && (List.range 32).all fun p => !getBitmap u.inodeBp p || decide (p ≤ 2)) &&
      (decide ((u.inodes 0).type = ufsDirectory) && decide ((u.inodes 1).type = ufsDirectory) &&
        decide ((u.inodes 2).type ≠ ufsDirectory)) &&
      (decide ((u.inodes 0).size = 96) && decide ((u.inodes 1).size = 96)) &&
      ([(0, 0), (0, 1), (1, 0), (1, 1), (1, 2)].all fun (p, t) => decide (u.entry p t 0 ≠ Libc.ch 'd')) &&
      decide (entInum (u.entry 0 2) = 1))
    (fun _ c test => by cases c with | unlink => cases test | _ => trivial) (by decide +kernel)
  simp only [Bool.and_eq_true, Bool.or_eq_true, Bool.not_eq_true', decide_eq_true_eq, List.all_eq_true,
    List.mem_range] at check
  obtain ⟨⟨⟨⟨⟨many, used⟩, ⟨root, inner⟩, file⟩, size, size'⟩, other⟩, third⟩ := check
  have unlooped : u.Unlooped := by
    refine unlooped_of_directories root (fun p q dir leads => ?_)
    obtain ⟨live, t, within, _, name, target⟩ := leads
    have low : p ≤ 2 := (used p (many ▸ live.1)).resolve_left (by rw [live.2]; decide)
    have length : (96 : Word).toInt = 96 := rfl
    have few : (p = 0 ∨ p = 1) ∧ t ≤ 2 := by
      have three : p = 0 ∨ p = 1 ∨ p = 2 := by omega
      rcases three with rfl | rfl | rfl
      · rw [size, length] at within
        omega
      · rw [size', length] at within
        omega
      · exact absurd dir file
    by_cases last : p = 0 ∧ t = 2
    · obtain ⟨rfl, rfl⟩ := last
      rw [third, show (1 : Word).toInt = 1 from rfl] at target
      have one : q = 1 := by omega
      exact one ▸ inner
    · refine absurd name (other (p, t) ?_)
      simp only [List.mem_cons, Prod.mk.injEq, List.not_mem_nil, or_false]
      omega
  refine ⟨u, run, fun con => ?_⟩
  exact (print_contents_ends (by decide) smallest_formatted (smallest_mounted .host) run con _ _).1 unlooped

/-- What print_fs_contents finds in file p: n entries, which are ".", ".." and some that lead
to the nodes. -/
structure Ufs.LeadsInto (u : Ufs) (nodes : Nat → Prop) (p n : Nat) : Prop where
  live : u.allocated p
  size : (u.inodes p).size.toInt = ((32 * n : Nat) : Int)
  real : ∀ t < n, (u.inodes p).ptr (t / 128) ≠ -1
  entries : ∀ t < n, ∃ name inum, EntryAt (u.entry p t) name inum ∧
    (name = [46] ∨ name = [46, 46] ∨ name.head? = some (Libc.ch 'd') ∧ nodes inum)

section Closed

variable {σ : Type} {u : Ufs} (sound : u.Sound .kernel) (placed : u.Placed) (con : Console)
  (malloc : σ → Word → Except Fault σ) {nodes : Nat → Prop}
include sound placed

theorem Ufs.LeadsInto.turn {p n t : Nat} (found : u.LeadsInto nodes p n) (inside : t < n) (et : Nat → Byte) :
    ∃ out name inum, ufsRead .kernel u p et ((32 * t : Nat) : Int) 32 = .ok (0, out) ∧ EntryAt out name inum ∧
      (name = [46] ∨ name = [46, 46] ∨ name.head? = some (Libc.ch 'd') ∧ nodes inum) ∧
      int32 (((32 * t : Nat) : Int) + 32) = ((32 * (t + 1) : Nat) : Int) := by
  obtain ⟨name, inum, entry, target⟩ := found.entries t inside
  have real := found.real t inside
  have within := Inode.ptr_lt real
  have size : ((32 * (t + 1) : Nat) : Int) ≤ (u.inodes p).size.toInt := by
    rw [found.size]
    omega
  obtain ⟨out, read, bytes⟩ := ufsRead_turn sound placed found.live size real et
  exact ⟨out, name, inum, read, entry.congr (fun k hk => (bytes k hk).symm), target, int32_offset (t := t + 1) (by omega)⟩

omit sound placed in
theorem Ufs.LeadsInto.stop {p n : Nat} (found : u.LeadsInto nodes p n) (et : Nat → Byte) :
    ufsRead .kernel u p et ((32 * n : Nat) : Int) 32 = .ok (-1, et) := by
  refine ufsRead_unreadable (fun readable => ?_)
  have size := readable.size
  have few : n ≤ 3840 := by
    by_contra many
    have last := Inode.ptr_lt (found.real (n - 1) (by omega))
    omega
  rw [int32_eq (by omega) (by omega), Int.toNat_natCast, found.size] at size
  omega

theorem listEntries_faultless {p n : Nat} (found : u.LeadsInto nodes p n) (fuel : Nat) {t : Nat} (le : t ≤ n)
    (et : Nat → Byte) (s : σ) :
    Faultless (listEntries con (u.services .kernel malloc) p fuel ((32 * t : Nat) : Int) et s) := by
  induction fuel generalizing t et with
  | zero => exact faultless_fuel
  | succ fuel ih =>
    simp only [listEntries, services_ufsRead]
    rcases Nat.lt_or_eq_of_le le with inside | rfl
    · obtain ⟨out, name, inum, read, entry, _, next⟩ := found.turn sound placed inside et
      have more : ¬ ((0 : Int) ≠ 0 ∨ entInum out = -1) := fun stop => stop.elim (fun h => h rfl) entry.used.1
      simp only [read, Except.map, once_ok_bind, if_neg more, says_entry con (e := (name, inum)) entry, ok_bind, next]
      exact (ih inside out).bind (fun rest _ => faultless_ok _)
    · rw [found.stop]
      exact faultless_ok (([], et), s)

/-- Nothing aborts where all entries lead to nodes whose entries do, too. -/
theorem printFsContents_faultless (closed : ∀ p, nodes p → ∃ n, u.LeadsInto nodes p n) (fuel : Nat) :
    (∀ p s, nodes p → Faultless (printFsContents con (u.services .kernel malloc) fuel p s)) ∧
      ∀ p n t et s, u.LeadsInto nodes p n → t ≤ n →
        Faultless (printEntries con (u.services .kernel malloc) fuel p ((32 * t : Nat) : Int) et s) := by
  induction fuel with
  | zero => exact ⟨fun _ _ _ => faultless_fuel, fun _ _ _ _ _ _ _ => faultless_fuel⟩
  | succ fuel ih =>
    obtain ⟨contents, entries⟩ := ih
    constructor
    · intro p s node
      obtain ⟨n, found⟩ := closed p node
      have bound := Nat.lt_trans found.live.1 u.s.ni_lt
      simp only [printFsContents, says_line, says_title con con.junk bound, ok_bind]
      refine (listEntries_faultless sound placed con malloc found fuel (Nat.zero_le n) con.junk s).bind (fun listed _ => ?_)
      exact (entries p n 0 listed.1.2 listed.2 found (Nat.zero_le n)).bind (fun inner _ => faultless_ok _)
    · intro p n t et s found le
      simp only [printEntries, services_ufsRead]
      rcases Nat.lt_or_eq_of_le le with inside | rfl
      · obtain ⟨out, name, inum, read, entry, target, next⟩ := found.turn sound placed inside et
        have more : ¬ ((0 : Int) ≠ 0 ∨ entInum out = -1) := fun stop => stop.elim (fun h => h rfl) entry.used.1
        have value := entry.used.2
        simp only [read, Except.map, once_ok_bind, if_neg more, next]
        refine Faultless.bind ?_ (fun printed _ => (entries p n (t + 1) out printed.2 found inside).bind
          (fun rest _ => faultless_ok _))
        rw [printEntry, value]
        by_cases directory : out 0 = Libc.ch 'd'
        · rw [if_pos directory]
          rcases target with rfl | rfl | ⟨_, node⟩
          · exact absurd (entry.holds.1.symm.trans directory) (by decide)
          · exact absurd (entry.holds.1.symm.trans directory) (by decide)
          · exact contents inum s node
        · rw [if_neg directory]
          have dots : ¬ (name ≠ [46] ∧ name ≠ [46, 46]) := by
            rcases target with rfl | rfl | ⟨first, _⟩
            · exact fun other => other.1 rfl
            · exact fun other => other.2 rfl
            · obtain ⟨rest, rfl⟩ := List.head?_eq_some_iff.mp first
              exact absurd entry.holds.1 directory
          simp only [isOther_name con entry.holds (by have := entry.short; omega), decide_eq_false dots, once_ok_bind]
          exact faultless_ok ([], s)
      · rw [found.stop]
        exact faultless_ok ([], s)

end Closed

theorem Ufs.LeadsInto.leads {u : Ufs} {nodes : Nat → Prop} {p n t q : Nat} {name : List Byte}
    (found : u.LeadsInto nodes p n) (inside : t < n) (entry : EntryAt (u.entry p t) name q)
    (first : name.head? = some (Libc.ch 'd')) : u.Leads p q := by
  obtain ⟨rest, rfl⟩ := List.head?_eq_some_iff.mp first
  refine ⟨found.live, t, ?_, fun s le => ⟨found.real s (by omega), ?_⟩, entry.holds.1, entry.used.2⟩
  · rw [found.size]
    omega
  · obtain ⟨_, _, used, _⟩ := found.entries s (by omega)
    exact used.used.1

/- A dir_ent_t by the name "d" for inode 1. -/
def loopEntry : Nat → Byte := fun k => if k = 0 then 100 else if k = 28 then 1 else 0

/- The entries of inodes 0 and 1 when a file "d" has loopEntry for its contents. -/
def loopEntries : List (Nat × Nat × List Byte × Nat) := [(0, 0, [46], 0), (0, 1, [46, 46], 0), (0, 2, [100], 1), (1, 0, [100], 1)]

/-- A file by the name "d" whose contents are an entry for itself: print_fs_contents never ends. -/
theorem print_contents_endless : ∃ u, Run (call .host) Removeless smallest
    [.creat 0 1 (letter 100 (by decide)) zeros, .write 1 loopEntry 0 32] u ∧
    ∀ con fuel, printFsContents con (u.services .kernel fun heap _ => .ok heap) fuel 0 () = .error .fuel := by
  obtain ⟨u, run, check⟩ := run_of_check (call .host) Removeless (fun _ c => !c.removes) smallest
    [.creat 0 1 (letter 100 (by decide)) zeros, .write 1 loopEntry 0 32]
    (fun u => decide (1 < u.s.ni) && (getBitmap u.inodeBp 0 && getBitmap u.inodeBp 1) &&
      (decide ((u.inodes 0).size = 96) && decide ((u.inodes 1).size = 32)) &&
      (decide ((u.inodes 0).ptr 0 ≠ -1) && decide ((u.inodes 1).ptr 0 ≠ -1)) &&
      loopEntries.all fun (p, t, name, inum) =>
        decide (Holds (u.entry p t) name) && decide (entInum (u.entry p t) = BitVec.ofNat 32 inum))
    (fun _ c test => by cases c with | unlink => cases test | _ => trivial) (by decide +kernel)
  simp only [Bool.and_eq_true, decide_eq_true_eq, List.all_eq_true] at check
  obtain ⟨⟨⟨⟨many, bit, bit'⟩, size, size'⟩, real, real'⟩, entries⟩ := check
  have entry : ∀ e ∈ loopEntries, e.2.2.1.length ≤ 27 → e.2.2.2 < 2147483648 →
      EntryAt (u.entry e.1 e.2.1) e.2.2.1 e.2.2.2 :=
    fun e mem short small => ⟨(entries e mem).1, short, (entries e mem).2, small⟩
  have self := entry (0, 0, [46], 0) (by decide) (by decide) (by decide)
  have up := entry (0, 1, [46, 46], 0) (by decide) (by decide) (by decide)
  have file := entry (0, 2, [100], 1) (by decide) (by decide) (by decide)
  have loop := entry (1, 0, [100], 1) (by decide) (by decide) (by decide)
  have root : u.LeadsInto (· ≤ 1) 0 3 := by
    refine ⟨⟨by omega, bit⟩, size ▸ rfl, fun t inside => ?_, fun t inside => ?_⟩
    · have block : t / 128 = 0 := by omega
      rw [block]
      exact real
    · have three : t = 0 ∨ t = 1 ∨ t = 2 := by omega
      rcases three with rfl | rfl | rfl
      · exact ⟨_, _, self, .inl rfl⟩
      · exact ⟨_, _, up, .inr (.inl rfl)⟩
      · exact ⟨_, _, file, .inr (.inr ⟨rfl, Nat.le_refl 1⟩)⟩
  have inner : u.LeadsInto (· ≤ 1) 1 1 := by
    refine ⟨⟨many, bit'⟩, size' ▸ rfl, fun t inside => ?_, fun t inside => ?_⟩
    · have block : t / 128 = 0 := by omega
      rw [block]
      exact real'
    · have one : t = 0 := by omega
      subst t
      exact ⟨_, _, loop, .inr (.inr ⟨rfl, Nat.le_refl 1⟩)⟩
  obtain ⟨sound, owned, _⟩ := Run.hangs (smallest_fresh .host) run
  refine ⟨u, run, fun con fuel => ?_⟩
  have closed : ∀ p, p ≤ 1 → ∃ n, u.LeadsInto (· ≤ 1) p n := by
    intro p le
    rcases Nat.le_one_iff_eq_zero_or_eq_one.mp le with rfl | rfl
    · exact ⟨3, root⟩
    · exact ⟨1, inner⟩
  have clean := (printFsContents_faultless sound.kernel owned.placed con (fun (heap : Unit) _ => .ok heap) closed fuel).1
    0 () (Nat.zero_le 1)
  cases result : printFsContents con (u.services .kernel fun heap _ => .ok heap) fuel 0 () with
  | error stop =>
    cases stop with
    | fuel => rfl
    | fault f => exact absurd result (clean f)
  | ok out =>
    have paths := acc_of_returns sound.kernel owned.placed con (p := 0) result
    have there : ReflTransGen u.Leads 0 1 := .single (root.leads (by decide) file rfl)
    have cycle : TransGen u.Leads 1 1 := .single (inner.leads (by decide) loop rfl)
    exact absurd cycle (not_cycle_of_acc (acc_reached paths there))

end Icix
