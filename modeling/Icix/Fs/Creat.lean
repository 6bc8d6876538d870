import Icix.Fs.File

/-! ufs_creat in phases: an inode is claimed, prepared for its type, and entered in
its parent. Each phase is one relation between states, which the calls' results
are shown to be in; nothing here is assumed about what directories contain. -/
namespace Icix
open Bytes Ownership

/-- The bytes that a build's strcpy copies. -/
def copied (b : Build) (src : CString) : Nat :=
  match b with
  | .host => src.chars.length + 1
  | .kernel => 5

/-- The host's strcpy keeps inside a directory entry's name. -/
def Fits (b : Build) (src : CString) : Prop := b = .host → src.chars.length ≤ 27

theorem strcpy_ok {b : Build} {src : CString} (fits : Fits b src) (m : Nat → Byte) (a : Nat) :
    strcpy b m a src = .ok (blit m a (copied b src) src.mem) := by
  cases b with
  | host => exact if_pos (Nat.succ_le_succ (fits rfl))
  | kernel => rfl

theorem strcpy_fault {b : Build} {src : CString} (large : ¬ Fits b src) (m : Nat → Byte) (a : Nat) :
    strcpy b m a src = .error .outOfBounds := by
  cases b with
  | host => exact if_neg (fun le => large (fun _ => Nat.le_of_succ_le_succ le))
  | kernel => exact absurd (fun same => by cases same) large

/- The contents of the three buffers that ufs_creat writes. -/
def dirBytes (b : Build) (stk : Stack) (inum pinum : Nat) : Nat → Byte :=
  let m := blit stk.newDir 0 (copied b (dot stk.rodata)) (dot stk.rodata).mem
  let m := putWord m 28 (BitVec.ofNat 32 inum)
  let m := blit m 32 (copied b (dotdot stk.rodata)) (dotdot stk.rodata).mem
  clearEntries (putWord m 60 (BitVec.ofNat 32 pinum)) 2

def entryBytes (b : Build) (stk : Stack) (inum : Nat) (name : CString) : Nat → Byte :=
  clearEntries (blit (putWord stk.newBlock 28 (BitVec.ofNat 32 inum)) 0 (copied b name) name.mem) 1

def dentBytes (b : Build) (stk : Stack) (inum : Nat) (name : CString) : Nat → Byte :=
  putWord (blit stk.dent 0 (copied b name) name.mem) 28 (BitVec.ofNat 32 inum)

theorem dirBlock_ok (b : Build) (stk : Stack) (inum pinum : Nat) :
    dirBlock b stk inum pinum = .ok (dirBytes b stk inum pinum) := by
  have first : Fits b (dot stk.rodata) := fun _ => show 1 ≤ 27 by decide
  have second : Fits b (dotdot stk.rodata) := fun _ => show 2 ≤ 27 by decide
  simp only [dirBlock, strcpy_ok first, strcpy_ok second]
  rfl

theorem entryBlock_ok {b : Build} {name : CString} (fits : Fits b name) (stk : Stack) (inum : Nat) :
    entryBlock b stk inum name = .ok (entryBytes b stk inum name) := by
  simp only [entryBlock, strcpy_ok fits]
  rfl

theorem dirEntry_ok {b : Build} {name : CString} (fits : Fits b name) (stk : Stack) (inum : Nat) :
    dirEntry b stk inum name = .ok (dentBytes b stk inum name) := by
  simp only [dirEntry, strcpy_ok fits]
  rfl

/-- Every block the parent has is full. -/
def Ufs.Full (u : Ufs) (i : Nat) : Prop :=
  ∀ a, (u.inodes i).ptr a ≠ -1 → firstUnused (u.block i a) = none

/-- The slots below a have blocks, and these are full. -/
def Ufs.FullTo (u : Ufs) (i a : Nat) : Prop :=
  ∀ c < a, (u.inodes i).ptr c ≠ -1 ∧ firstUnused (u.block i c) = none

theorem emptyPosInode_some {u : Ufs} {i : Nat} (found : emptyPosInode u = some i) :
    i < u.s.ni ∧ getBitmap u.inodeBp i = false := by
  have clear := List.find?_some found
  have inside := List.mem_of_find?_eq_some found
  exact ⟨List.mem_range.mp inside, by simpa using clear⟩

/-- What the scan of the data bitmap has found in its first n bits. -/
structure Scanned (u : Ufs) (n : Nat) (found : Option Nat × Option Nat) : Prop where
  first : ∀ k, found.1 = some k → k < n ∧ getBitmap u.dataBp k = false
  second : ∀ k, found.2 = some k → k < n ∧ getBitmap u.dataBp k = false ∧ found.1 ≠ some k
  none : found.1 = none → found.2 = none ∧ ∀ k < n, getBitmap u.dataBp k = true

theorem emptyPosData_scanned (u : Ufs) : Scanned u u.s.nd (emptyPosData u) := by
  unfold emptyPosData
  generalize u.s.nd = n
  induction n with
  | zero => exact ⟨fun _ h => (by cases h), fun _ h => (by cases h), fun _ => ⟨rfl, fun _ h => (by cases h)⟩⟩
  | succ n ih =>
    rw [List.range_succ, List.foldl_append, List.foldl_cons, List.foldl_nil]
    generalize (List.range n).foldl _ (none, none) = found at ih ⊢
    obtain ⟨first, second⟩ := found
    have firstLt := fun k h => (ih.first k h).1
    cases bit : getBitmap u.dataBp n with
    | true =>
      refine ⟨fun k h => ?_, fun k h => ?_, fun h => ⟨(ih.none h).1, fun k hk => ?_⟩⟩
      · exact ⟨Nat.lt_succ_of_lt (ih.first k h).1, (ih.first k h).2⟩
      · exact ⟨Nat.lt_succ_of_lt (ih.second k h).1, (ih.second k h).2⟩
      · by_cases last : k = n
        · exact last ▸ bit
        · exact (ih.none h).2 k (by omega)
    | false =>
      cases first with
      | none =>
        have empty := (ih.none rfl).1
        subst empty
        refine ⟨fun k h => ?_, fun k h => (by cases h), fun h => (by cases h)⟩
        cases Option.some.inj h
        exact ⟨Nat.lt_succ_self n, bit⟩
      | some f =>
        have below := ih.first f rfl
        cases second with
        | none =>
          refine ⟨fun k h => ⟨Nat.lt_succ_of_lt (ih.first k h).1, (ih.first k h).2⟩, fun k h => ?_,
            fun h => (by cases h)⟩
          cases Option.some.inj h
          refine ⟨Nat.lt_succ_self n, bit, fun same => ?_⟩
          cases Option.some.inj same
          exact absurd below.1 (Nat.lt_irrefl n)
        | some g =>
          exact ⟨fun k h => ⟨Nat.lt_succ_of_lt (ih.first k h).1, (ih.first k h).2⟩,
            fun k h => ⟨Nat.lt_succ_of_lt (ih.second k h).1, (ih.second k h).2⟩, fun h => (by cases h)⟩

/- The states after the block of a new directory, and the next block of a full
parent, have been marked and written. -/
def withDirectory (b : Build) (u : Ufs) (pinum inum k : Nat) (stk : Stack) : Ufs :=
  (markData (u.setInode inum (Inode.setPtr { u.inodes inum with size := 64 } 0 (u.newBlock k))) k).putBytes
    (4096 * (u.s.dr + k)) 4096 (dirBytes b stk inum pinum)

def withEntryBlock (b : Build) (u : Ufs) (inum k : Nat) (name : CString) (stk : Stack) : Ufs :=
  markData (u.putBytes (4096 * (u.s.dr + k)) 4096 (entryBytes b stk inum name)) k

def emptied (u : Ufs) (i : Nat) : Ufs := u.setInode i { u.inodes i with size := 0 }

/- The inode has been claimed: ufs_creat gives it a size and, for a directory, a block. -/
inductive Prepared (b : Build) (u : Ufs) (pinum inum : Nat) (type : Word) (stk : Stack) : Ufs → Prop
  | file (other : type ≠ ufsDirectory) :
      Prepared b u pinum inum type stk (emptied u inum)
  | directory {k : Nat} (same : type = ufsDirectory) (hk : k < u.s.nd)
      (clear : getBitmap u.dataBp k = false) :
      Prepared b u pinum inum type stk (withDirectory b u pinum inum k stk)

/- The parent gets its entry: in a new block when it is full, else in the first
unused one. When no block has one after all, nothing is written. -/
inductive Entered (b : Build) (u : Ufs) (pinum inum : Nat) (name : CString) (stk : Stack) : Bool → Ufs → Prop
  | appended {k : Nat} (hk : k < u.s.nd) (clear : getBitmap u.dataBp k = false)
      (room : (u.inodes pinum).size ≠ 122880) (fits : Fits b name) :
      Entered b u pinum inum name stk true
        (linkBlock (withEntryBlock b u inum k name stk) pinum (u.newBlock k))
  | placed {a j : Nat} (ha : a < 30) (before : u.FullTo pinum a) (real : (u.inodes pinum).ptr a ≠ -1)
      (unused : firstUnused (u.block pinum a) = some j) (fits : Fits b name) :
      Entered b u pinum inum name stk false
        (u.putBytes (4096 * ((u.inodes pinum).ptr a).toNat + 32 * j) 32 (dentBytes b stk inum name))
  | nowhere (full : u.FullTo pinum 30) : Entered b u pinum inum name stk false u

def grown (u : Ufs) (pinum : Nat) : Ufs :=
  u.setInode pinum { u.inodes pinum with size := (u.inodes pinum).size + 32 }

/-- How ufs_creat ends once it has found an inode to claim. -/
inductive Created (b : Build) (u : Ufs) (pinum inum : Nat) (type : Word) (name : CString) (stk : Stack) :
    Creat → Ufs → Prop
  | early (why : (u.inodes pinum).size = 122880 ∨
        type = ufsDirectory ∧ (u.Full pinum ∨ firstClearData u = none)) :
      Created b u pinum inum type name stk .failed (claimInode u inum type)
  | nodata (other : type ≠ ufsDirectory) (room : (u.inodes pinum).size ≠ 122880) (full : u.Full pinum)
      (nospace : firstClearData u = none) :
      Created b u pinum inum type name stk .failed
        (markDirty (emptied (claimInode u inum type) inum) pinum)
  | entered {full : Bool} {v x w : Ufs} (room : (u.inodes pinum).size ≠ 122880)
      (fullness : full = true ↔ u.Full pinum)
      (prepared : Prepared b (claimInode u inum type) pinum inum type stk v)
      (entered : Entered b (markDirty v pinum) pinum inum name stk full x)
      (committed : Committed (grown x pinum) w) :
      Created b u pinum inum type name stk .committed w

/-- The two ways ufs_creat can fault: the name leaves its buffer, or a slot without
a block comes before the unused entry. -/
def Stuck (b : Build) (u : Ufs) (pinum : Nat) (name : CString) : Prop :=
  ¬ Fits b name ∨ ∃ a < 30, (u.inodes pinum).ptr a = -1 ∧ u.FullTo pinum a

section Phases

variable {b : Build} {u : Ufs} {pinum inum : Nat} {name : CString} {stk : Stack} (sound : u.Sound b)
include sound

theorem newBlock_write {k : Nat} (hk : k < u.s.nd) (data : Nat → Byte) :
    Write b u.disk (u.newBlock k * 4096) data 4096 =
      some { u.disk with byte := blit u.disk.byte (4096 * (u.s.dr + k)) 4096 data } := by
  have value := newBlock_toNat sound hk
  have last := sound.data_le
  have small := sound.disk_le
  have limit := b.limit_lt
  have fits : 4096 * (u.s.dr + k) + 4096 ≤ u.disk.len := by omega
  have addr : (u.newBlock k * 4096).toNat = 4096 * (u.s.dr + k) := by
    rw [block_addr_zero (by omega), value]
  rw [Write_ok _ data (Nat.succ_pos 4095) (addr ▸ fits) small, addr]

theorem makeDirectory_ok {k : Nat} (hk : k < u.s.nd) :
    makeDirectory b u pinum inum k stk = .ok (withDirectory b u pinum inum k stk) := by
  have write := newBlock_write (b := b) sound hk (dirBytes b stk inum pinum)
  simp only [makeDirectory, dirBlock_ok, Runs.ok_bind, markData_disk, Ufs.setInode_disk, write]
  rfl

theorem appendBlock_ok {k : Nat} (hk : k < u.s.nd) (fits : Fits b name) :
    appendBlock b u pinum inum k name stk =
      .ok (linkBlock (withEntryBlock b u inum k name stk) pinum (u.newBlock k)) := by
  have write := newBlock_write (b := b) sound hk (entryBytes b stk inum name)
  simp only [appendBlock, entryBlock_ok fits, Runs.ok_bind, write]
  rfl

theorem finishCreat_ok (pinum : Nat) : ∃ w, finishCreat b u pinum = .ok (.committed, w) ∧ Committed (grown u pinum) w := by
  obtain ⟨w, commit, committed⟩ := commitOrExit_ok (u := grown u pinum) sound
    "ufs_creat couldn't commit dirty to disk"
  refine ⟨w, ?_, committed⟩
  change (commitOrExit b (grown u pinum) _ >>= fun u => _) = _
  rw [commit]
  rfl

variable (placed : u.Placed) (live : u.allocated pinum)
include placed live

/-- The scan of the parent's blocks always returns. -/
theorem isPinodeFull_ok (left : Nat) (le : left ≤ 30) :
    ∃ full, isPinodeFull b u.disk (u.inodes pinum) left = .ok full ∧
      (full = true ↔ ∀ a, 30 - left ≤ a → (u.inodes pinum).ptr a ≠ -1 →
        firstUnused (u.block pinum a) = none) := by
  induction left with
  | zero =>
    refine ⟨true, rfl, fun _ a above real => ?_, fun _ => rfl⟩
    have inside := Inode.ptr_lt real
    omega
  | succ left ih =>
    obtain ⟨full, run, meaning⟩ := ih (by omega)
    have split : ∀ a, 30 - (left + 1) ≤ a ↔ a = 29 - left ∨ 30 - left ≤ a := by omega
    unfold isPinodeFull
    by_cases empty : (u.inodes pinum).ptr (29 - left) = -1
    · refine ⟨full, by simp only [if_pos empty, run], meaning.trans ⟨fun all a above real => ?_, ?_⟩⟩
      · rcases (split a).mp above with rfl | above
        · exact absurd empty real
        · exact all a above real
      · exact fun all a above => all a ((split a).mpr (Or.inr above))
    · have read := held_block placed live empty sound
      cases unused : firstUnused (u.block pinum (29 - left)) with
      | some j =>
        refine ⟨false, ?_, fun h => (by cases h), fun all => ?_⟩
        · simp only [if_neg empty, read, unused]
        · have full := all (29 - left) ((split _).mpr (Or.inl rfl)) empty
          rw [unused] at full
          cases full
      | none =>
        refine ⟨full, ?_, meaning.trans ⟨fun all a above real => ?_, ?_⟩⟩
        · simp only [if_neg empty, read, unused, run]
        · rcases (split a).mp above with rfl | above
          · exact unused
          · exact all a above real
        · exact fun all a above => all a ((split a).mpr (Or.inr above))

/-- Without faults the entry goes to the first block with an unused one. -/
theorem placeEntry_spec (inum : Nat) (name : CString) (stk : Stack) (left : Nat) (le : left ≤ 30) (before : u.FullTo pinum (30 - left)) :
    (∃ v, placeEntry b u pinum inum name stk left = .ok v ∧ Entered b u pinum inum name stk false v) ∨
    (∃ f, placeEntry b u pinum inum name stk left = .error f ∧ Stuck b u pinum name) := by
  induction left with
  | zero => exact Or.inl ⟨u, rfl, .nowhere before⟩
  | succ left ih =>
    have index : 30 - (left + 1) = 29 - left := by omega
    rw [index] at before
    unfold placeEntry
    by_cases empty : (u.inodes pinum).ptr (29 - left) = -1
    · have none : 0 < 4096 := by decide
      have fail := Read_minus_one sound.disk_le none none
      rw [show BitVec.ofNat 32 0 = 0#32 from rfl, BitVec.add_zero] at fail
      refine Or.inr ⟨.exit "ufs_creat read fail", ?_, Or.inr ⟨29 - left, by omega, empty, before⟩⟩
      simp only [empty, fail]
    · have read := held_block placed live empty sound
      cases unused : firstUnused (u.block pinum (29 - left)) with
      | none =>
        have next : u.FullTo pinum (30 - left) := by
          intro c hc
          by_cases last : c = 29 - left
          · exact last ▸ ⟨empty, unused⟩
          · exact before c (by omega)
        have tail := ih (by omega) next
        simp only [read, unused]
        exact tail
      | some j =>
        have inside : j < 128 := List.mem_range.mp (List.mem_of_find?_eq_some unused)
        by_cases fits : Fits b name
        · have within : 32 * j + 32 ≤ 4096 := by omega
          have write := held_write placed live empty sound (by decide) within (dentBytes b stk inum name)
          have offset : BitVec.ofNat 32 (32 * j) = BitVec.ofNat 32 j * 32 := by
            rw [Nat.mul_comm, BitVec.ofNat_mul]
            rfl
          rw [offset] at write
          refine Or.inl ⟨_, ?_, .placed (by omega) before empty unused fits⟩
          simp only [read, unused, dirEntry_ok fits, Runs.ok_bind, write]
          rfl
        · refine Or.inr ⟨.outOfBounds, ?_, Or.inl fits⟩
          simp only [read, unused, dirEntry, strcpy_fault fits]
          rfl

end Phases

theorem claimInode_allocates {t : Prop} {u : Ufs} {i : Nat} (clear : getBitmap u.inodeBp i = false)
    (type : Word) : Allocates t u (claimInode u i type) := by
  refine .same rfl rfl ?_ rfl
  funext ⟨j, a⟩
  by_cases same : j = i
  · subst j
    have free : ¬ u.allocated i := fun live => by rw [live.2] at clear; cases clear
    have empty : ((claimInode u i type).inodes i).ptr a = -1 := by
      simp only [claimInode, Function.update_self, Inode.ptr, dite_eq_right_iff, implies_true]
    simp only [Ufs.ref, empty, free, false_and, ne_eq, not_true, and_false, if_false]
  · have bit : (claimInode u i type).allocated j ↔ u.allocated j := by
      simp only [Ufs.allocated, claimInode, get_set_nat, same, decide_false, Bool.false_or]
    have inode : (claimInode u i type).inodes j = u.inodes j := Function.update_of_ne same _ _
    simp only [Ufs.ref, bit, inode]

theorem claimInode_ptr (u : Ufs) (i : Nat) (type : Word) (a : Nat) :
    ((claimInode u i type).inodes i).ptr a = -1 := by
  simp only [claimInode, Function.update_self, Inode.ptr, dite_eq_right_iff, implies_true]

theorem claimInode_other {u : Ufs} {i j : Nat} (type : Word) (other : j ≠ i) :
    (claimInode u i type).inodes j = u.inodes j := Function.update_of_ne other _ _

theorem claimInode_allocated {u : Ufs} {i : Nat} (hi : i < u.s.ni) (type : Word) (j : Nat) :
    (claimInode u i type).allocated j ↔ j = i ∨ u.allocated j := by
  unfold Ufs.allocated
  simp only [claimInode, get_set_nat, Bool.or_eq_true, decide_eq_true_eq]
  constructor
  · rintro ⟨bound, same | bit⟩
    · exact Or.inl same
    · exact Or.inr ⟨bound, bit⟩
  · rintro (rfl | ⟨bound, bit⟩)
    · exact ⟨hi, Or.inl rfl⟩
    · exact ⟨bound, Or.inr bit⟩

theorem setInode_allocates {t : Prop} {u : Ufs} {i : Nat} {n : Inode}
    (ptr : ∀ a, n.ptr a = (u.inodes i).ptr a) : Allocates t u (u.setInode i n) := by
  refine .congr rfl rfl rfl rfl (fun j a => ?_)
  by_cases same : j = i
  · subst j
    exact (congrArg (Inode.ptr · a) (Function.update_self ..)).trans (ptr a)
  · exact congrArg (Inode.ptr · a) (Function.update_of_ne same _ _)

theorem putBytes_allocates {t : Prop} (u : Ufs) (a n : Nat) (src : Nat → Byte) :
    Allocates t u (u.putBytes a n src) := .congr rfl rfl rfl rfl (fun _ _ => rfl)

theorem newBlock_data {u : Ufs} {k : Nat} (hk : k < u.s.nd) (x : Nat) (hx : x < 4096) :
    u.s.InData (4096 * (u.s.dr + k) + x) := by
  unfold Super.InData
  omega

/- The phases as steps that allocate, and as steps that mark what they change. -/
section Steps

variable {b : Build} {t : Prop} {u v x w : Ufs} {pinum inum : Nat} {type : Word} {name : CString}
  {stk : Stack} {full : Bool} {r : Creat}

theorem Prepared.allocates (sound : u.Sound b) (live : u.allocated inum) (empty : ∀ a, (u.inodes inum).ptr a = -1)
    (prepared : Prepared b u pinum inum type stk v) : Allocates t u v := by
  cases prepared with
  | file => exact setInode_allocates (fun _ => rfl)
  | @directory k same hk clear =>
    refine alloc_block sound live (empty 0) hk clear rfl rfl rfl (fun j hj => Function.update_of_ne hj _ _)
      (fun c => ?_) (fun j => get_set_nat u.dataBp k j)
    have inode : (withDirectory b u pinum inum k stk).inodes inum =
        Inode.setPtr { u.inodes inum with size := 64 } 0 (u.newBlock k) := Function.update_self ..
    rw [inode, Inode.ptr_setPtr _ (Nat.succ_pos 29)]
    rfl

theorem Prepared.marked (dirty : getBitmap u.dirtyInodeBp inum = true)
    (prepared : Prepared b u pinum inum type stk v) : Marked u v := by
  cases prepared with
  | file => exact .setInode u dirty _
  | @directory k same hk clear =>
    refine ((Marked.setInode u dirty _).trans (.markData _ k)).trans (.putBytes (fun x hx => ?_) _)
    exact newBlock_data hk x hx

theorem linkBlock_some {block : Word} {a : Nat} (free : firstFreePtr (u.inodes pinum) = some a) :
    linkBlock u pinum block = u.setInode pinum ((u.inodes pinum).setPtr a block) := by
  simp only [linkBlock, free]

theorem linkBlock_none {block : Word} (free : firstFreePtr (u.inodes pinum) = none) :
    linkBlock u pinum block = u := by
  simp only [linkBlock, free]

theorem firstFreePtr_some {n : Inode} {a : Nat} (free : firstFreePtr n = some a) :
    a < 30 ∧ n.ptr a = -1 ∧ ∀ c < a, n.ptr c ≠ -1 := by
  have found := List.find?_range_eq_some.mp free
  exact ⟨List.mem_range.mp found.2.1, by simpa using found.1, fun c hc => by simpa using found.2.2 c hc⟩

theorem Entered.allocates (sound : u.Sound b) (live : u.allocated pinum)
    (entered : Entered b u pinum inum name stk full v) :
    Allocates (full = true → firstFreePtr (u.inodes pinum) ≠ none) u v := by
  cases entered with
  | @appended k hk clear =>
    cases free : firstFreePtr (u.inodes pinum) with
    | none =>
      rw [linkBlock_none (u := withEntryBlock b u inum k name stk) free]
      have marks := used_mark (u := u) (v := withEntryBlock b u inum k name stk) rfl hk
        (fun j => get_set_nat u.dataBp k j)
      refine ⟨rfl, rfl, id, fun old => ⟨old.exclusive, old.covered.mono fun d used => ?_⟩,
        fun room => absurd rfl (room rfl)⟩
      exact (marks d).mpr (Or.inr used)
    | some a =>
      obtain ⟨ha, empty, _⟩ := firstFreePtr_some free
      rw [linkBlock_some (u := withEntryBlock b u inum k name stk) free]
      refine alloc_block sound live empty hk clear rfl rfl rfl (fun j hj => Function.update_of_ne hj _ _)
        (fun c => ?_) (fun j => get_set_nat u.dataBp k j)
      exact (congrArg (Inode.ptr · c) (Function.update_self ..)).trans (Inode.ptr_setPtr _ ha _ c)
  | placed => exact putBytes_allocates u _ _ _
  | nowhere => exact .refl _ _

theorem Entered.marked (placed : u.Placed) (live : u.allocated pinum)
    (dirty : getBitmap u.dirtyInodeBp pinum = true)
    (entered : Entered b u pinum inum name stk full v) : Marked u v := by
  cases entered with
  | @appended k hk clear =>
    have write : Marked u (withEntryBlock b u inum k name stk) :=
      (Marked.putBytes (newBlock_data hk) _).trans (.markData _ _)
    cases free : firstFreePtr (u.inodes pinum) with
    | none =>
      rw [linkBlock_none (u := withEntryBlock b u inum k name stk) free]
      exact write
    | some a =>
      rw [linkBlock_some (u := withEntryBlock b u inum k name stk) free]
      exact write.trans (.setInode (withEntryBlock b u inum k name stk) dirty _)
  | @placed a j ha before real unused =>
    have inside : j < 128 := List.mem_range.mp (List.mem_of_find?_eq_some unused)
    refine .putBytes (fun k hk => ?_) _
    have within : 32 * j + k < 4096 := by omega
    have data := held_data placed live real within
    rwa [← Nat.add_assoc] at data
  | nowhere => exact .refl u

/-- A step that ends with a commit. -/
def Flushed (u w : Ufs) : Prop := ∃ v, Marked u v ∧ Committed v w

theorem grown_allocates {t : Prop} (u : Ufs) (pinum : Nat) : Allocates t u (grown u pinum) :=
  setInode_allocates (fun _ => rfl)

theorem emptied_allocates {t : Prop} (u : Ufs) (i : Nat) : Allocates t u (emptied u i) :=
  setInode_allocates (fun _ => rfl)

theorem markDirty_allocates {t : Prop} (u : Ufs) (i : Nat) : Allocates t u (markDirty u i) :=
  .congr rfl rfl rfl rfl (fun _ _ => rfl)

end Steps

/- Preparing the claimed inode changes no other one. -/
theorem Prepared.other {b : Build} {u v : Ufs} {pinum inum : Nat} {type : Word} {stk : Stack}
    (prepared : Prepared b u pinum inum type stk v) {j : Nat} (hj : j ≠ inum) :
    v.inodes j = u.inodes j := by
  cases prepared <;> exact Function.update_of_ne hj _ _

theorem Prepared.inodeBp {b : Build} {u v : Ufs} {pinum inum : Nat} {type : Word} {stk : Stack}
    (prepared : Prepared b u pinum inum type stk v) :
    v.inodeBp = u.inodeBp ∧ v.dirtyInodeBp = u.dirtyInodeBp := by
  cases prepared <;> exact ⟨rfl, rfl⟩

theorem allocated_congr {u v : Ufs} (s : v.s = u.s) (inodeBp : v.inodeBp = u.inodeBp) (i : Nat) :
    v.allocated i ↔ u.allocated i := by
  unfold Ufs.allocated
  rw [s, inodeBp]

/-- The end of ufs_creat, in a state in which the new inode is prepared. -/
theorem updateParent_spec {b : Build} {v : Ufs} {pinum : Nat} {k : Option Nat} (sound : v.Sound b)
    (placed : v.Placed) (live : v.allocated pinum) (room : (v.inodes pinum).size ≠ 122880)
    (free : ∀ k', k = some k' → k' < v.s.nd ∧ getBitmap v.dataBp k' = false)
    (inum : Nat) (full : Bool) (name : CString) (stk : Stack) :
    (full = true ∧ k = none ∧ updateParent b v pinum inum k full name stk = .ok (.failed, markDirty v pinum)) ∨
    (∃ x w, updateParent b v pinum inum k full name stk = .ok (.committed, w) ∧
      Entered b (markDirty v pinum) pinum inum name stk full x ∧ Committed (grown x pinum) w) ∨
    (∃ f, updateParent b v pinum inum k full name stk = .error f ∧
      (¬ Fits b name ∨ full = false ∧ Stuck b (markDirty v pinum) pinum name)) := by
  have soundM : (markDirty v pinum).Sound b := sound
  have placedM : (markDirty v pinum).Placed := placed
  have liveM : (markDirty v pinum).allocated pinum := live
  have roomM : ((markDirty v pinum).inodes pinum).size ≠ 122880 := room
  cases full with
  | true =>
    cases k with
    | none => exact Or.inl ⟨rfl, rfl, rfl⟩
    | some k =>
      obtain ⟨hk, bit⟩ := free k rfl
      have hkM : k < (markDirty v pinum).s.nd := hk
      by_cases fits : Fits b name
      · have entered : Entered b (markDirty v pinum) pinum inum name stk true _ :=
          .appended hk bit room fits
        have step := entered.allocates soundM liveM
        obtain ⟨w, finish, committed⟩ := finishCreat_ok (step.sound soundM) pinum
        refine Or.inr (Or.inl ⟨_, w, ?_, entered, committed⟩)
        simp only [updateParent, if_true, if_neg roomM]
        rw [appendBlock_ok soundM hkM fits]
        exact finish
      · refine Or.inr (Or.inr ⟨.outOfBounds, ?_, Or.inl fits⟩)
        simp only [updateParent, if_true, if_neg roomM, appendBlock, entryBlock, strcpy_fault fits]
        rfl
  | false =>
    have start : (markDirty v pinum).FullTo pinum (30 - 30) := fun c hc => absurd hc (Nat.not_lt_zero c)
    rcases placeEntry_spec soundM placedM liveM inum name stk 30 (Nat.le_refl 30) start with
      ⟨x, place, entered⟩ | ⟨f, place, stuck⟩
    · have step := entered.allocates soundM liveM
      obtain ⟨w, finish, committed⟩ := finishCreat_ok (step.sound soundM) pinum
      refine Or.inr (Or.inl ⟨x, w, ?_, entered, committed⟩)
      simp only [updateParent, Bool.false_eq_true, if_false, place]
      exact finish
    · refine Or.inr (Or.inr ⟨f, ?_, Or.inr ⟨rfl, stuck⟩⟩)
      simp only [updateParent, Bool.false_eq_true, if_false, place]
      rfl

/- What holds when ufs_creat claims inum for an entry of pinum. -/
section Claim

variable {b : Build} {u w : Ufs} {pinum inum : Nat} {type : Word} {name : CString} {stk : Stack}
  {r : Creat}

theorem claimed_ne (live : u.allocated pinum) (clear : getBitmap u.inodeBp inum = false) : pinum ≠ inum := by
  rintro rfl
  rw [live.2] at clear
  cases clear

/-- ufs_creat from its claim on ends in one of the ways above, or it faults because
the name or the parent is not as it expects. -/
def Outcome (b : Build) (u : Ufs) (pinum inum : Nat) (type : Word) (name : CString) (stk : Stack)
    (result : Except Fault (Creat × Ufs)) : Prop :=
  (∃ r w, result = .ok (r, w) ∧ Created b u pinum inum type name stk r w) ∨
  (∃ f, result = .error f ∧ (¬ Fits b name ∨ ¬ u.Full pinum ∧
    ∃ v, Prepared b (claimInode u inum type) pinum inum type stk v ∧ Stuck b (markDirty v pinum) pinum name))

variable (sound : u.Sound b) (placed : u.Placed) (live : u.allocated pinum) (hi : inum < u.s.ni)
  (clear : getBitmap u.inodeBp inum = false)
include sound placed live hi clear

theorem updateParent_outcome {v : Ufs} {k : Option Nat} {full : Bool}
    (room : (u.inodes pinum).size ≠ 122880) (fullness : full = true ↔ u.Full pinum)
    (prepared : Prepared b (claimInode u inum type) pinum inum type stk v)
    (free : ∀ k', k = some k' → k' < v.s.nd ∧ getBitmap v.dataBp k' = false)
    (empty : full = true → k = none → type ≠ ufsDirectory ∧ firstClearData u = none ∧
      v = emptied (claimInode u inum type) inum)
    (name : CString) :
    Outcome b u pinum inum type name stk (updateParent b v pinum inum k full name stk) := by
  have other := claimed_ne live clear
  have claim := claimInode_allocates (t := True) clear type
  have liveC := (claimInode_allocated hi type pinum).mpr (Or.inr live)
  have newC := (claimInode_allocated hi type inum).mpr (Or.inl rfl)
  have step := claim.trans (prepared.allocates (claim.sound sound) newC (claimInode_ptr u inum type))
  have parent : v.inodes pinum = u.inodes pinum := (prepared.other other).trans (claimInode_other type other)
  have liveV := (allocated_congr (u := claimInode u inum type) step.s prepared.inodeBp.1 pinum).mpr liveC
  rcases updateParent_spec (step.sound sound) (step.placed placed) liveV (parent ▸ room) free inum full name
    stk with ⟨hfull, hk, run⟩ | ⟨x, w, run, entered, committed⟩ | ⟨f, run, stuck⟩
  · obtain ⟨file, nospace, rfl⟩ := empty hfull hk
    exact Or.inl ⟨.failed, _, run, .nodata file room (fullness.mp hfull) nospace⟩
  · exact Or.inl ⟨.committed, w, run, .entered room fullness prepared entered committed⟩
  · refine Or.inr ⟨f, run, stuck.imp_right fun h => ⟨fun hfull => ?_, v, prepared, h.2⟩⟩
    rw [fullness.mpr hfull] at h
    exact Bool.noConfusion h.1

theorem creatAt_outcome (type : Word) (name : CString) (stk : Stack) :
    Outcome b u pinum inum type name stk (creatAt b u pinum inum (emptyPosData u) type name stk) := by
  have other := claimed_ne live clear
  have scanned := emptyPosData_scanned u
  generalize emptyPosData u = data at scanned
  obtain ⟨first, second⟩ := data
  have claim := claimInode_allocates (t := True) clear type
  have soundC := claim.sound sound
  have liveC := (claimInode_allocated hi type pinum).mpr (Or.inr live)
  have parent : (claimInode u inum type).inodes pinum = u.inodes pinum := claimInode_other type other
  have nospace : first = none → firstClearData u = none := by
    intro empty
    refine List.find?_eq_none.mpr (fun k hk => ?_)
    simp only [(scanned.none empty).2 k (List.mem_range.mp hk), Bool.not_true, Bool.false_eq_true,
      not_false_eq_true]
  unfold creatAt
  simp only [parent]
  by_cases room : (u.inodes pinum).size = 122880
  · rw [if_pos room]
    exact Or.inl ⟨.failed, _, rfl, .early (Or.inl room)⟩
  · rw [if_neg room]
    obtain ⟨full, scan, fullness⟩ := isPinodeFull_ok soundC (claim.placed placed) liveC 30 (Nat.le_refl 30)
    have fullness : full = true ↔ u.Full pinum := by
      have block : ∀ a, (claimInode u inum type).block pinum a = u.block pinum a :=
        fun a => by rw [Ufs.block, Ufs.block, parent]; rfl
      simp only [parent, block] at fullness
      exact fullness.trans ⟨fun all a => all a (by omega), fun all a _ => all a⟩
    rw [parent] at scan
    simp only [scan, Runs.ok_bind]
    by_cases dir : type = ufsDirectory
    · rw [if_pos dir]
      cases first with
      | none => exact Or.inl ⟨.failed, _, rfl, .early (Or.inr ⟨dir, Or.inr (nospace rfl)⟩)⟩
      | some k =>
        obtain ⟨hk, bit⟩ := scanned.first k rfl
        have hkC : k < (claimInode u inum type).s.nd := hk
        by_cases full2 : full = true ∧ second = none
        · simp only [if_pos full2]
          exact Or.inl ⟨.failed, _, rfl, .early (Or.inr ⟨dir, Or.inl (fullness.mp full2.1)⟩)⟩
        · simp only [if_neg full2, makeDirectory_ok soundC hkC, Runs.ok_bind]
          refine updateParent_outcome sound placed live hi clear room fullness (.directory dir hkC bit) ?_ ?_ name
          · intro k' found
            obtain ⟨hk', bit', ne⟩ := scanned.second k' found
            refine ⟨hk', ?_⟩
            have apart : ¬ k' = k := fun same => ne (congrArg some same.symm)
            change getBitmap (setBitmap u.dataBp k) k' = false
            simp only [get_set_nat, apart, bit', decide_false, Bool.false_or]
          · exact fun hfull none => absurd ⟨hfull, none⟩ full2
    · rw [if_neg dir]
      refine updateParent_outcome sound placed live hi clear room fullness (.file dir) ?_ ?_ name
      · exact fun k' found => scanned.first k' found
      · exact fun _ empty => ⟨dir, nospace empty, rfl⟩

omit sound placed live in
theorem Created.start (type : Word) : Marked u (claimInode u inum type) ∧
    (∀ t, Allocates t u (claimInode u inum type)) ∧ (claimInode u inum type).allocated inum ∧
    getBitmap (claimInode u inum type).dirtyInodeBp inum = true :=
  ⟨.claimInode u inum type, fun _ => claimInode_allocates clear type,
    (claimInode_allocated hi type inum).mpr (Or.inl rfl), get_set_self u.dirtyInodeBp inum⟩

/-- A creation allocates and nothing else, and marks what it changes. -/
theorem Created.settled (created : Created b u pinum inum type name stk r w) :
    Allocates ((u.inodes pinum).size ≠ 122880 → u.Full pinum → firstFreePtr (u.inodes pinum) ≠ none) u w ∧
      (r = .failed ∧ Marked u w ∨ r = .committed ∧ Flushed u w) := by
  have other := claimed_ne live clear
  obtain ⟨marked, claim, newC, dirty⟩ := Created.start hi clear type
  cases created with
  | early => exact ⟨claim _, Or.inl ⟨rfl, marked⟩⟩
  | nodata =>
    refine ⟨((claim _).trans (emptied_allocates _ inum)).trans (markDirty_allocates _ _), Or.inl ⟨rfl, ?_⟩⟩
    exact (marked.trans (.setInode _ dirty _)).trans (.markDirty _ _)
  | @entered full v x w room fullness prepared entered committed =>
    have first := (claim (full = true → firstFreePtr (u.inodes pinum) ≠ none)).trans
      (prepared.allocates ((claim True).sound sound) newC (claimInode_ptr u inum type))
    have second := first.trans (markDirty_allocates v pinum)
    have liveC := (claimInode_allocated hi type pinum).mpr (Or.inr live)
    have liveV := (allocated_congr (u := claimInode u inum type) first.s prepared.inodeBp.1 pinum).mpr liveC
    have liveM : (markDirty v pinum).allocated pinum := liveV
    have parent : (markDirty v pinum).inodes pinum = u.inodes pinum :=
      (prepared.other other).trans (claimInode_other type other)
    have third := entered.allocates (second.sound sound) liveM
    rw [parent] at third
    have dirtyM := markDirty_dirty v pinum
    have marks := ((marked.trans (prepared.marked dirty)).trans (.markDirty v pinum)).trans
      (entered.marked (second.placed placed) liveM dirtyM)
    have dirtyX := (entered.marked (second.placed placed) liveM dirtyM).dirtyInodes pinum dirtyM
    have step := ((second.trans third).trans (grown_allocates x pinum)).trans committed.step.allocates
    exact ⟨step.weaken (fun spare isFull => spare room (fullness.mp isFull)), Or.inr ⟨rfl, _, marks.trans (.setInode x dirtyX _), committed⟩⟩

omit sound placed live hi clear in
theorem Entered.inodes {v x : Ufs} {full : Bool} (entered : Entered b v pinum inum name stk full x) :
    x.s = v.s ∧ x.inodeBp = v.inodeBp ∧ (∀ j, j ≠ pinum → x.inodes j = v.inodes j) ∧
      (x.inodes pinum).type = (v.inodes pinum).type ∧ (x.inodes pinum).size = (v.inodes pinum).size := by
  cases entered with
  | @appended k =>
    cases free : firstFreePtr (v.inodes pinum) with
    | none =>
      rw [linkBlock_none (u := withEntryBlock b v inum k name stk) free]
      exact ⟨rfl, rfl, fun _ _ => rfl, rfl, rfl⟩
    | some a =>
      rw [linkBlock_some (u := withEntryBlock b v inum k name stk) free]
      refine ⟨rfl, rfl, fun j hj => Function.update_of_ne hj _ _, ?_, ?_⟩
      · exact (congrArg Inode.type (Function.update_self ..)).trans (Inode.type_setPtr _ _ _)
      · exact (congrArg Inode.size (Function.update_self ..)).trans (Inode.size_setPtr _ _ _)
  | placed => exact ⟨rfl, rfl, fun _ _ => rfl, rfl, rfl⟩
  | nowhere => exact ⟨rfl, rfl, fun _ _ => rfl, rfl, rfl⟩

omit sound placed live hi clear in
theorem Created.s (created : Created b u pinum inum type name stk r w) : w.s = u.s := by
  cases created with
  | early => rfl
  | nodata => rfl
  | entered _ _ prepared entered committed =>
    have tail := committed.step.s.trans entered.inodes.1
    cases prepared <;> exact tail

omit sound placed live hi clear in
theorem Created.inodeBp (created : Created b u pinum inum type name stk r w) :
    w.inodeBp = setBitmap u.inodeBp inum := by
  cases created with
  | early => rfl
  | nodata => rfl
  | entered _ _ prepared entered committed =>
    exact (committed.step.inodeBp.trans entered.inodes.2.1).trans prepared.inodeBp.1

omit sound placed live clear in
theorem Created.allocated (created : Created b u pinum inum type name stk r w) (j : Nat) :
    w.allocated j ↔ j = inum ∨ u.allocated j := by
  rw [← claimInode_allocated hi type]
  exact allocated_congr (u := claimInode u inum type) created.s created.inodeBp j

omit sound placed live hi clear in
/-- Only the claimed inode and the parent change. -/
theorem Created.other (created : Created b u pinum inum type name stk r w) {j : Nat} (hj : j ≠ inum)
    (hp : j ≠ pinum) : w.inodes j = u.inodes j := by
  have claim := claimInode_other (u := u) type hj
  cases created with
  | early => exact claim
  | nodata => exact (Function.update_of_ne hj _ _).trans claim
  | @entered full v x w room fullness prepared entered committed =>
    calc
      w.inodes j = (grown x pinum).inodes j := congrFun committed.step.inodes j
      _ = x.inodes j := Function.update_of_ne hp _ _
      _ = v.inodes j := entered.inodes.2.2.1 j hp
      _ = (claimInode u inum type).inodes j := prepared.other hj
      _ = u.inodes j := claim

omit sound placed hi in
theorem Created.parent_type (created : Created b u pinum inum type name stk r w) :
    (w.inodes pinum).type = (u.inodes pinum).type := by
  have other := claimed_ne live clear
  have claim := congrArg Inode.type (claimInode_other (u := u) type other)
  cases created with
  | early => exact claim
  | nodata => exact (congrArg Inode.type (Function.update_of_ne other _ _)).trans claim
  | @entered full v x w room fullness prepared entered committed =>
    have grow : (grown x pinum).inodes pinum =
        { x.inodes pinum with size := (x.inodes pinum).size + 32 } := Function.update_self ..
    calc
      (w.inodes pinum).type = ((grown x pinum).inodes pinum).type := by rw [committed.step.inodes]
      _ = (x.inodes pinum).type := by rw [grow]
      _ = (v.inodes pinum).type := entered.inodes.2.2.2.1
      _ = ((claimInode u inum type).inodes pinum).type := congrArg Inode.type (prepared.other other)
      _ = (u.inodes pinum).type := claim

omit sound placed hi in
/-- The claimed inode has the type asked for. One that is no directory has no block,
and its size is 0 unless the parent was as large as it can be. -/
theorem Created.claimed (created : Created b u pinum inum type name stk r w) :
    (w.inodes inum).type = type ∧ (type ≠ ufsDirectory → (∀ a, (w.inodes inum).ptr a = -1) ∧
      ((w.inodes inum).size = 0 ∨
        (u.inodes pinum).size = 122880 ∧ (w.inodes inum).size = (u.inodes inum).size)) := by
  have other := claimed_ne live clear
  have inode : (claimInode u inum type).inodes inum = { u.inodes inum with type := type, direct := fun _ => -1 } :=
    Function.update_self ..
  cases created with
  | early why =>
    refine ⟨congrArg Inode.type inode, fun file => ⟨claimInode_ptr u inum type, Or.inr ⟨?_, ?_⟩⟩⟩
    · exact why.resolve_right (fun h => file h.1)
    · rw [inode]
  | nodata =>
    have file : (markDirty (emptied (claimInode u inum type) inum) pinum).inodes inum =
        { (claimInode u inum type).inodes inum with size := 0 } := Function.update_self ..
    rw [file]
    exact ⟨congrArg Inode.type inode, fun _ => ⟨claimInode_ptr u inum type, Or.inl rfl⟩⟩
  | @entered full v x w room fullness prepared entered committed =>
    have final : w.inodes inum = v.inodes inum :=
      (congrFun committed.step.inodes inum).trans
        ((Function.update_of_ne other.symm _ _).trans (entered.inodes.2.2.1 inum other.symm))
    rw [final]
    cases prepared with
    | file =>
      have file : (emptied (claimInode u inum type) inum).inodes inum =
          { (claimInode u inum type).inodes inum with size := 0 } := Function.update_self ..
      rw [file]
      exact ⟨congrArg Inode.type inode, fun _ => ⟨claimInode_ptr u inum type, Or.inl rfl⟩⟩
    | @directory k same =>
      have made : (withDirectory b (claimInode u inum type) pinum inum k stk).inodes inum =
          Inode.setPtr { (claimInode u inum type).inodes inum with size := 64 } 0
            ((claimInode u inum type).newBlock k) := Function.update_self ..
      rw [made, Inode.type_setPtr]
      exact ⟨congrArg Inode.type inode, fun file => absurd same file⟩

end Claim

/-- The checks of ufs_creat before it claims inum. -/
structure Ufs.Creatable (b : Build) (u : Ufs) (pinum : Int) (name : CString) (inum : Nat) : Prop where
  low : 0 ≤ pinum
  live : u.allocated pinum.toNat
  dir : (u.inodes pinum.toNat).type = ufsDirectory
  short : int32 name.chars.length ≤ 27
  absent : ufsLookup b u pinum name = .ok (-1)
  found : emptyPosInode u = some inum

/-- Past those checks ufs_creat is what follows its claim. -/
theorem Ufs.Creatable.ufsCreat {b : Build} {u : Ufs} {pinum : Int} {name : CString} {inum : Nat}
    (creatable : u.Creatable b pinum name inum) (type : Word) (stk : Stack) :
    ufsCreat b u pinum type name stk = creatAt b u pinum.toNat inum (emptyPosData u) type name stk := by
  have low := creatable.low
  have live := creatable.live
  have bound := live.1
  unfold Super.ni at bound
  have index : ((pinum.toNat : Nat) : Int) = pinum := by omega
  have bit : getBitmap u.inodeBp pinum = true := index ▸ live.2
  have short := creatable.short
  unfold Icix.ufsCreat
  rw [if_neg (by omega), if_neg (by simp [bit]), if_neg (not_not.mpr creatable.dir), if_neg (by omega),
    creatable.absent]
  simp only [Runs.ok_bind, ne_eq, not_true, if_false, creatable.found]

/-- A call that does not get past them changes nothing. -/
theorem ufsCreat_early {b : Build} {u w : Ufs} {pinum : Int} {type : Word} {name : CString} {stk : Stack}
    {r : Creat} (early : ¬ ∃ inum, u.Creatable b pinum name inum)
    (returned : ufsCreat b u pinum type name stk = .ok (r, w)) : r = .failed ∧ w = u := by
  have unchanged : (Except.ok (Creat.failed, u) : Except Fault (Creat × Ufs)) = .ok (r, w) → r = .failed ∧ w = u := by
    intro same
    obtain ⟨rfl, rfl⟩ := Prod.mk.inj (Except.ok.inj same)
    exact ⟨rfl, rfl⟩
  unfold ufsCreat at returned
  split at returned
  · exact unchanged returned
  · rename_i range
    split at returned
    · exact unchanged returned
    · rename_i bit
      have live : u.allocated pinum.toNat := allocated_of_bit (by omega) (by omega) (by simpa using bit)
      split at returned
      · exact unchanged returned
      · rename_i dir
        split at returned
        · exact unchanged returned
        · rename_i short
          obtain ⟨found, lookup, returned⟩ := Runs.bind_ok.mp returned
          split at returned
          · exact unchanged returned
          · rename_i absent
            have absent : found = -1 := by simpa using absent
            split at returned
            · exact unchanged returned
            · rename_i i new
              refine absurd ⟨i, ?_⟩ early
              exact ⟨by omega, live, by simpa using dir, by omega, absent ▸ lookup, new⟩

theorem ufsCreat_cases {b : Build} {u w : Ufs} {pinum : Int} {type : Word} {name : CString} {stk : Stack}
    {r : Creat} (sound : u.Sound b) (placed : u.Placed)
    (returned : ufsCreat b u pinum type name stk = .ok (r, w)) :
    (r = .failed ∧ w = u) ∨
    ∃ inum, u.Creatable b pinum name inum ∧ Created b u pinum.toNat inum type name stk r w := by
  by_cases early : ∃ inum, u.Creatable b pinum name inum
  · obtain ⟨inum, creatable⟩ := early
    have free := emptyPosInode_some creatable.found
    rw [creatable.ufsCreat] at returned
    rcases creatAt_outcome sound placed creatable.live free.1 free.2 type name stk with
      ⟨r', w', run, created⟩ | ⟨f, run, _⟩
    · rw [run] at returned
      cases returned
      exact Or.inr ⟨inum, creatable, created⟩
    · rw [run] at returned
      cases returned
  · exact Or.inl (ufsCreat_early early returned)

end Icix
