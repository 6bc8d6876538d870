import Icix.Fs.Removal

/-! Which bits of the data bitmap an unlink clears, and which blocks it gives up. The
inodes hold addresses on the disk and the bitmap counts from the data region's start;
ufs_unlink uses the one as the other. Nothing is asked of the layout here. -/
namespace Icix
open Bytes Ownership Runs

/-- The pointer, of those from 30 - left on, whose block an unlink of the name gives up: the
first block with the name, when it has no other used entry. -/
def emptiedSlot (b : Build) (d : Disk) (ptr : Nat → Word) (name : CString) : Nat → Option Nat
  | 0 => none
  | left + 1 =>
    let a := 29 - left
    if ptr a = -1 then emptiedSlot b d ptr name left
    else match Read b d (ptr a * 4096) 4096 with
      | none => none
      | some block =>
        match scanBlock block name 128 (none, 0) with
        | .error _ => none
        | .ok (none, _) => emptiedSlot b d ptr name left
        | .ok (some _, cnt) => if cnt = 1 then some a else none

/-- The slots whose addresses an unlink of the name hands to reset_bitmap. -/
def Ufs.Frees (b : Build) (u : Ufs) (p : Nat) (name : CString) (slot : Nat × Nat) : Prop :=
  ufsLookup b u p name = .ok slot.1 ∨ slot.1 = p ∧ emptiedSlot b u.disk (u.inodes p).ptr name 30 = some slot.2

def Ufs.slotPtr (u : Ufs) (slot : Nat × Nat) : Word := (u.inodes slot.1).ptr slot.2

/- The bits that it clears. -/
def Ufs.Resets (b : Build) (u : Ufs) (p : Nat) (name : CString) (k : Nat) : Prop :=
  ∃ slot, u.Frees b p name slot ∧ u.slotPtr slot ≠ -1 ∧ SameBit (u.slotPtr slot).toInt k

theorem emptiedSlot_real {b : Build} {d : Disk} {ptr : Nat → Word} {name : CString} {left a : Nat}
    (emptied : emptiedSlot b d ptr name left = some a) : a < 30 ∧ ptr a ≠ -1 := by
  induction left with
  | zero => cases emptied
  | succ left ih =>
    unfold emptiedSlot at emptied
    dsimp only at emptied
    split at emptied
    · exact ih emptied
    · rename_i real
      split at emptied
      · cases emptied
      · split at emptied
        · cases emptied
        · exact ih emptied
        · split at emptied
          · cases Option.some.inj emptied
            exact ⟨by omega, real⟩
          · cases emptied

/-- What dropEntry does in memory, wherever it reads and writes. -/
theorem dropEntry_memory {b : Build} {u x : Ufs} {p : Nat} {name : CString} {stk : Stack} {left : Nat}
    (dropped : dropEntry b u p name stk left = .ok x) : x.s = u.s ∧ x.inodeBp = u.inodeBp ∧
    match emptiedSlot b u.disk (u.inodes p).ptr name left with
    | some a => x.inodes = Function.update u.inodes p ((u.inodes p).setPtr a (-1)) ∧
        x.dataBp = resetBitmap u.dataBp ((u.inodes p).ptr a).toInt
    | none => x.inodes = u.inodes ∧ x.dataBp = u.dataBp := by
  induction left with
  | zero =>
    cases Except.ok.inj dropped
    exact ⟨rfl, rfl, rfl, rfl⟩
  | succ left ih =>
    unfold dropEntry at dropped
    unfold emptiedSlot
    dsimp only at dropped ⊢
    by_cases empty : (u.inodes p).ptr (29 - left) = -1
    · rw [if_pos empty] at dropped ⊢
      exact ih dropped
    · rw [if_neg empty] at dropped ⊢
      cases read : Read b u.disk ((u.inodes p).ptr (29 - left) * 4096) 4096 with
      | none =>
        rw [read] at dropped
        cases dropped
      | some block =>
        rw [read] at dropped
        obtain ⟨⟨found, cnt⟩, scan, dropped⟩ := bind_ok.mp dropped
        simp only [scan]
        cases found with
        | none => exact ih dropped
        | some j =>
          dsimp only at dropped ⊢
          by_cases only : cnt = 1
          · rw [if_pos only] at dropped ⊢
            obtain ⟨v, release, dropped⟩ := bind_ok.mp dropped
            unfold releasePtr at release
            split at release
            · cases Except.ok.inj release
              cases Except.ok.inj dropped
              exact ⟨rfl, rfl, rfl, rfl⟩
            · cases release
          · rw [if_neg only] at dropped ⊢
            split at dropped
            · cases dropped
            · cases Except.ok.inj dropped
              exact ⟨rfl, rfl, rfl, rfl⟩

section Drop

variable {b : Build} {u x : Ufs} {p left : Nat} {name : CString} {stk : Stack}
  (dropped : dropEntry b u p name stk left = .ok x)
include dropped

theorem dropEntry_ptr (i c : Nat) : (x.inodes i).ptr c =
    if i = p ∧ emptiedSlot b u.disk (u.inodes p).ptr name left = some c then -1 else (u.inodes i).ptr c := by
  have memory := (dropEntry_memory dropped).2.2
  cases emptied : emptiedSlot b u.disk (u.inodes p).ptr name left with
  | none =>
    rw [emptied] at memory
    rw [memory.1, if_neg (fun h => by cases h.2)]
  | some a =>
    rw [emptied] at memory
    rw [memory.1]
    by_cases here : i = p
    · rw [here, Function.update_self, Inode.ptr_setPtr _ (emptiedSlot_real emptied).1]
      simp only [true_and, Option.some.injEq, eq_comm]
    · rw [Function.update_of_ne here, if_neg (fun h => here h.1)]

theorem dropEntry_bits (k : Nat) : getBitmap x.dataBp k = true ↔ getBitmap u.dataBp k = true ∧
    ∀ a, emptiedSlot b u.disk (u.inodes p).ptr name left = some a → ¬ SameBit ((u.inodes p).ptr a).toInt k := by
  have memory := (dropEntry_memory dropped).2.2
  cases emptied : emptiedSlot b u.disk (u.inodes p).ptr name left with
  | none =>
    rw [emptied] at memory
    rw [memory.2]
    exact (and_iff_left (fun a none => by cases none)).symm
  | some a =>
    rw [emptied] at memory
    rw [memory.2, get_reset, Bool.and_eq_true, Bool.not_eq_true', decide_eq_false_iff_not, and_comm]
    refine and_congr_right fun _ => ⟨fun apart c same => ?_, fun all => all a rfl⟩
    cases Option.some.inj same
    exact apart

end Drop

/-- A commit changes nothing that the calls look at in memory. -/
structure SameMemory (u v : Ufs) : Prop where
  s : v.s = u.s
  inodeBp : v.inodeBp = u.inodeBp
  dataBp : v.dataBp = u.dataBp
  inodes : v.inodes = u.inodes

theorem commit_memory {b : Build} {u w : Ufs} {message : String} (done : commitOrExit b u message = .ok w) :
    SameMemory u w := by
  unfold commitOrExit at done
  split at done
  · cases done
  · rename_i v commit
    cases Except.ok.inj done
    obtain ⟨m, inodes, data⟩ := Option.bind_eq_some_iff.mp commit
    refine foldlM_some (fun x k y same turn => ?_)
      (foldlM_some (fun x i y same turn => ?_) (⟨rfl, rfl, rfl, rfl⟩ : SameMemory u u) inodes) data
    · unfold commitData at turn
      split at turn
      · obtain ⟨d, _, rfl⟩ := Option.map_eq_some_iff.mp turn
        exact ⟨same.s, same.inodeBp, same.dataBp, same.inodes⟩
      · exact Option.some.inj turn ▸ same
    · unfold commitInode at turn
      split at turn
      · obtain ⟨d, _, turn⟩ := Option.bind_eq_some_iff.mp turn
        obtain ⟨d', _, rfl⟩ := Option.map_eq_some_iff.mp turn
        exact ⟨same.s, same.inodeBp, same.dataBp, same.inodes⟩
      · exact Option.some.inj turn ▸ same

/-- What an unlink that removes inode inum leaves of the slots and of the bits. -/
structure GivenUp (b : Build) (u : Ufs) (p : Nat) (name : CString) (inum : Nat) (w : Ufs) : Prop where
  live : u.allocated p
  found : ufsLookup b u p name = .ok inum
  s : w.s = u.s
  slots : ∀ slot d, w.ref slot = some d ↔ u.ref slot = some d ∧ ¬ u.Frees b p name slot
  bits : ∀ k : Nat, getBitmap w.dataBp k = true ↔ getBitmap u.dataBp k = true ∧ ¬ u.Resets b p name k

theorem frees_iff {b : Build} {u : Ufs} {p inum : Nat} {name : CString} (found : ufsLookup b u p name = .ok inum)
    (slot : Nat × Nat) : u.Frees b p name slot ↔
      slot.1 = inum ∨ slot.1 = p ∧ emptiedSlot b u.disk (u.inodes p).ptr name 30 = some slot.2 := by
  unfold Ufs.Frees
  rw [found, Except.ok.injEq, Int.ofNat_inj, eq_comm]

theorem ufsUnlink_givenUp {b : Build} {u w : Ufs} {pinum : Int} {name : CString} {stk : Stack}
    (returned : ufsUnlink b u pinum name stk = .ok (0, w)) : ∃ inum, GivenUp b u pinum.toNat name inum w := by
  rcases ufsUnlink_phases returned with ⟨failed, _⟩ | ⟨_, inum, v, x, removable, release, drop, commit⟩
  · cases failed
  · have parent : ((pinum.toNat : Nat) : Int) = pinum := Int.toNat_of_nonneg removable.low
    have found : ufsLookup b u pinum.toNat name = .ok inum := parent.symm ▸ removable.found
    have live := removable.live
    have frees := frees_iff found
    generalize pinum.toNat = p at *
    have gone : Released (unmarked u p inum) (u.inodes inum) 0 v := releasePtrs_released (Nat.le_refl 30) release
    have same := commit_memory commit
    have ptr : ((shrunk v p).inodes p).ptr = (u.inodes p).ptr := funext (shrunk_ptr gone p)
    have disk : (shrunk v p).disk = u.disk := gone.disk
    have pointers := dropEntry_ptr drop
    have bits := dropEntry_bits drop
    rw [ptr, disk] at pointers bits
    obtain ⟨s, inodeBp, _⟩ := dropEntry_memory drop
    have sW : w.s = u.s := same.s.trans (s.trans gone.marked.s)
    have allocated : ∀ i, w.allocated i ↔ i ≠ inum ∧ u.allocated i := by
      intro i
      have bitmap : w.inodeBp = resetBitmap u.inodeBp inum := same.inodeBp.trans (inodeBp.trans gone.inodeBp)
      unfold Ufs.allocated
      rw [sW, bitmap, get_reset_nat, Bool.and_eq_true, Bool.not_eq_true', decide_eq_false_iff_not]
      exact and_left_comm
    refine ⟨inum, live, found, sW, fun ⟨i, c⟩ d => ?_, fun k => ?_⟩
    · rw [ref_eq_some, ref_eq_some, allocated, same.inodes, pointers, shrunk_ptr gone, frees]
      by_cases emptied : i = p ∧ emptiedSlot b u.disk (u.inodes p).ptr name 30 = some c
      · rw [if_pos emptied]
        exact ⟨fun h => absurd rfl h.2.1, fun h => absurd (Or.inr emptied) h.2⟩
      · rw [if_neg emptied]
        exact ⟨fun ⟨⟨other, liveI⟩, real, value⟩ => ⟨⟨liveI, real, value⟩, not_or.mpr ⟨other, emptied⟩⟩,
          fun ⟨⟨liveI, real, value⟩, kept⟩ => ⟨⟨(not_or.mp kept).1, liveI⟩, real, value⟩⟩
    · rw [same.dataBp, bits]
      constructor
      · rintro ⟨bit, last⟩
        obtain ⟨old, all⟩ := (gone.bits k).mp bit
        refine ⟨old, ?_⟩
        rintro ⟨⟨i, c⟩, freed, real, hit⟩
        rcases (frees (i, c)).mp freed with rfl | ⟨rfl, emptied⟩
        · exact all c (Nat.zero_le c) real hit
        · exact last c emptied hit
      · rintro ⟨old, kept⟩
        refine ⟨(gone.bits k).mpr ⟨old, fun c _ real hit => ?_⟩, fun a emptied hit => ?_⟩
        · exact kept ⟨(inum, c), (frees _).mpr (Or.inl rfl), real, hit⟩
        · exact kept ⟨(p, a), (frees _).mpr (Or.inr ⟨rfl, emptied⟩), (emptiedSlot_real emptied).2, hit⟩

/-- The unlink did what it should: the indices are those of data blocks, the bits are again
exact, and the blocks that went are those which the given-up slots held. -/
structure FreesExactly (b : Build) (u : Ufs) (p : Nat) (name : CString) (w : Ufs) : Prop where
  indices : ∀ slot, u.Frees b p name slot → u.slotPtr slot ≠ -1 →
    0 ≤ (u.slotPtr slot).toInt ∧ (u.slotPtr slot).toInt < u.s.nd
  tight : w.Tight
  blocks : ∀ d, u.used d ∧ ¬ w.used d ↔ ∃ slot, u.Frees b p name slot ∧ u.ref slot = some d

/-- The bits that are cleared are, by their indices, those of the blocks that are given up. -/
def Ufs.ClearsOwn (b : Build) (u : Ufs) (p : Nat) (name : CString) : Prop :=
  (∀ slot, u.Frees b p name slot → u.slotPtr slot ≠ -1 →
    0 ≤ (u.slotPtr slot).toInt ∧ (u.slotPtr slot).toInt < u.s.nd) ∧
  ∀ k < u.s.nd, getBitmap u.dataBp k = true →
    (u.Resets b p name k ↔ ∃ slot, u.Frees b p name slot ∧ u.ref slot = some (u.s.dr + k))

theorem sameBit_index {x : Int} (low : 0 ≤ x) (k : Nat) : SameBit x k ↔ x = k := by
  obtain ⟨n, rfl⟩ := Int.eq_ofNat_of_zero_le low
  rw [sameBit_nat, Int.ofNat_inj]
  exact eq_comm

section Unlink

variable {b : Build} {u w : Ufs} {p inum : Nat} {name : CString} (exclusive : Exclusive u.ref) (tight : u.Tight)
  (freed : GivenUp b u p name inum w)
include exclusive tight freed

omit exclusive tight in
theorem GivenUp.used (d : Nat) : w.used d ↔ u.used d ∧ ¬ ∃ k, d = u.s.dr + k ∧ u.Resets b p name k := by
  unfold Ufs.used
  rw [freed.s]
  constructor
  · rintro ⟨k, hk, same, bit⟩
    obtain ⟨old, kept⟩ := (freed.bits k).mp bit
    refine ⟨⟨k, hk, same, old⟩, ?_⟩
    rintro ⟨k', same', reset⟩
    have index : k' = k := by omega
    exact kept (index ▸ reset)
  · rintro ⟨⟨k, hk, same, old⟩, kept⟩
    exact ⟨k, hk, same, (freed.bits k).mpr ⟨old, fun reset => kept ⟨k, same, reset⟩⟩⟩

theorem GivenUp.exactly_iff : FreesExactly b u p name w ↔ u.ClearsOwn b p name := by
  have release := Exact.release_iff tight exclusive freed.slots freed.used
  have reset : ∀ k, (∃ k', u.s.dr + k = u.s.dr + k' ∧ u.Resets b p name k') ↔ u.Resets b p name k := by
    intro k
    constructor
    · rintro ⟨k', same, resets⟩
      have index : k' = k := by omega
      exact index ▸ resets
    · exact fun resets => ⟨k, rfl, resets⟩
  constructor
  · rintro ⟨indices, exact, _⟩
    refine ⟨indices, fun k hk bit => ?_⟩
    rw [← reset k]
    exact release.mp exact _ ⟨k, hk, rfl, bit⟩
  · rintro ⟨indices, own⟩
    have pairs : ∀ d, u.used d → ((∃ k, d = u.s.dr + k ∧ u.Resets b p name k) ↔
        ∃ slot, u.Frees b p name slot ∧ u.ref slot = some d) := by
      rintro d ⟨k, hk, rfl, bit⟩
      exact (reset k).trans (own k hk bit)
    refine ⟨indices, release.mpr pairs, fun d => ?_⟩
    rw [freed.used]
    constructor
    · rintro ⟨marked, gone⟩
      exact (pairs d marked).mp (not_not.mp (fun still => gone ⟨marked, still⟩))
    · rintro ⟨slot, frees, held⟩
      have marked := (tight d).mpr ⟨slot, held⟩
      exact ⟨marked, fun kept => kept.2 ((pairs d marked).mpr ⟨slot, frees, held⟩)⟩

omit exclusive tight in
/-- What an unlink of an inode in use hands to reset_bitmap are addresses of held blocks. -/
theorem GivenUp.held (used : u.allocated inum) {slot : Nat × Nat} (frees : u.Frees b p name slot)
    (real : u.slotPtr slot ≠ -1) : u.ref slot = some (u.slotPtr slot).toNat := by
  obtain ⟨i, a⟩ := slot
  refine ref_eq_some.mpr ⟨?_, real, rfl⟩
  rcases (frees_iff freed.found _).mp frees with same | ⟨same, _⟩
  · exact (show i = inum from same) ▸ used
  · exact (show i = p from same) ▸ freed.live

omit exclusive freed in
theorem Ufs.Tight.region {slot : Nat × Nat} {d : Nat} (held : u.ref slot = some d) :
    u.s.dr ≤ d ∧ d < u.s.dr + u.s.nd := by
  obtain ⟨k, hk, same, _⟩ := (tight d).mpr ⟨slot, held⟩
  omega

omit exclusive in
/-- The least block given up would stay marked, so with addresses off by dr none is. -/
theorem GivenUp.nothing (used : u.allocated inum) (nonzero : u.s.dr ≠ 0) (clears : u.ClearsOwn b p name)
    {slot : Nat × Nat} (frees : u.Frees b p name slot) : u.slotPtr slot = -1 := by
  obtain ⟨indices, own⟩ := clears
  by_contra real
  have none := none_of_offsets (Nat.pos_of_ne_zero nonzero) (s := fun d => ∃ slot, u.Frees b p name slot ∧
    u.ref slot = some d) (fun d ⟨slot, _, held⟩ => (tight.region held).1) (fun k ⟨slot, frees, held⟩ => ?_)
  · exact none _ ⟨slot, frees, freed.held used frees real⟩
  · obtain ⟨k', hk, same, bit⟩ := (tight _).mpr ⟨slot, held⟩
    have index : k' = k := by omega
    rw [index] at hk bit
    obtain ⟨other, frees', real', hit⟩ := (own k hk bit).mpr ⟨slot, frees, held⟩
    have value := (sameBit_index (indices other frees' real').1 k).mp hit
    refine ⟨other, frees', ?_⟩
    rw [freed.held used frees' real', Option.some.injEq]
    have word := BitVec.toInt_eq_toNat_cond (u.slotPtr other)
    split at word <;> omega

omit exclusive in
/-- With the data region at block 0, an address is the index of its block. -/
theorem GivenUp.index (used : u.allocated inum) (zero : u.s.dr = 0) {slot : Nat × Nat}
    (frees : u.Frees b p name slot) (real : u.slotPtr slot ≠ -1) :
    (u.slotPtr slot).toInt = (u.slotPtr slot).toNat ∧ (u.slotPtr slot).toNat < u.s.nd := by
  have place := tight.region (freed.held used frees real)
  have small := u.s.nd_lt
  have word := BitVec.toInt_eq_toNat_cond (u.slotPtr slot)
  rw [if_pos (by omega)] at word
  exact ⟨word, by omega⟩

omit exclusive in
theorem GivenUp.clearsOwn_iff (used : u.allocated inum) : u.ClearsOwn b p name ↔
    u.s.dr = 0 ∨ ∀ slot, u.Frees b p name slot → u.slotPtr slot = -1 := by
  constructor
  · intro clears
    exact or_iff_not_imp_left.mpr (fun nonzero _ frees => freed.nothing tight used nonzero clears frees)
  · rintro (zero | nothing)
    · refine ⟨fun slot frees real => ?_, fun k hk bit => ⟨?_, ?_⟩⟩
      · have same := freed.index tight used zero frees real
        omega
      · rintro ⟨slot, frees, real, hit⟩
        have same := freed.index tight used zero frees real
        rw [sameBit_index (by omega)] at hit
        refine ⟨slot, frees, ?_⟩
        rw [freed.held used frees real, Option.some.injEq]
        omega
      · rintro ⟨slot, frees, held⟩
        obtain ⟨_, real, value⟩ := ref_eq_some.mp held
        have number : (u.slotPtr slot).toNat = u.s.dr + k := value
        have same := freed.index tight used zero frees real
        exact ⟨slot, frees, real, (sameBit_index (by omega) k).mpr (by omega)⟩
    · refine ⟨fun slot frees real => absurd (nothing slot frees) real, fun k hk bit => ⟨?_, ?_⟩⟩
      · rintro ⟨slot, frees, real, _⟩
        exact absurd (nothing slot frees) real
      · rintro ⟨slot, frees, held⟩
        exact absurd (nothing slot frees) (ref_eq_some.mp held).2.1

end Unlink

/-- Where the name is that of an inode in use, addresses are indices or no block is given up;
where it is that of a free one, its stale pointers clear the parent's block and no other. -/
def Ufs.FreesOwn (b : Build) (u : Ufs) (p : Nat) (name : CString) : Prop :=
  ∀ inum : Nat, ufsLookup b u p name = .ok inum →
    if u.allocated inum then u.s.dr = 0 ∨ ∀ slot, u.Frees b p name slot → u.slotPtr slot = -1
    else u.ClearsOwn b p name

/-- From an exact data bitmap, an unlink leaves one exactly when the bits it clears are those
of the blocks it gives up. -/
theorem unlink_frees_exactly {b : Build} {u w : Ufs} {pinum : Int} {name : CString} {stk : Stack}
    (exclusive : Exclusive u.ref) (tight : u.Tight) (returned : ufsUnlink b u pinum name stk = .ok (0, w)) :
    FreesExactly b u pinum.toNat name w ↔ u.FreesOwn b pinum.toNat name := by
  obtain ⟨inum, freed⟩ := ufsUnlink_givenUp returned
  have exactly := freed.exactly_iff exclusive tight
  have only : ∀ i : Nat, ufsLookup b u pinum.toNat name = .ok i ↔ i = inum := by
    intro i
    rw [freed.found, Except.ok.injEq, Int.ofNat_inj, eq_comm]
  simp only [Ufs.FreesOwn, only, forall_eq]
  by_cases used : u.allocated inum
  · rw [if_pos used, exactly]
    exact freed.clearsOwn_iff tight used
  · rw [if_neg used]
    exact exactly

/-- An empty file has no block, and its directory keeps its other entries. -/
theorem unlink_frees_exactly_empty : ∃ u w, Run (call .host) Removeless smallest
    [.creat 0 1 (letter 97 (by decide)) zeros] u ∧ ufsUnlink .host u 0 (letter 97 (by decide)) zeros = .ok (0, w) ∧
    FreesExactly .host u 0 (letter 97 (by decide)) w := by
  obtain ⟨u, run, check⟩ := run_of_check (call .host) Removeless (fun _ c => !c.removes) smallest
    [.creat 0 1 (letter 97 (by decide)) zeros]
    (fun u => decide ((ufsUnlink .host u 0 (letter 97 (by decide)) zeros).map Prod.fst = .ok 0) &&
      decide (ufsLookup .host u 0 (letter 97 (by decide)) = .ok 1) && decide (u.allocated 1) &&
      (List.range 30).all (fun a => decide ((u.inodes 1).ptr a = -1)) &&
      decide (emptiedSlot .host u.disk (u.inodes 0).ptr (letter 97 (by decide)) 30 = none))
    (fun _ c test => by cases c with | unlink => cases test | _ => trivial) (by decide +kernel)
  simp only [Bool.and_eq_true, decide_eq_true_eq, List.all_eq_true, List.mem_range] at check
  obtain ⟨⟨⟨⟨unlink, lookup⟩, live⟩, empty⟩, kept⟩ := check
  obtain ⟨⟨r, w⟩, unlinked, rfl⟩ := map_ok.mp unlink
  obtain ⟨⟨_, tidy⟩, tight⟩ := Run.tidy (smallest_fresh .host) run
  refine ⟨u, w, run, unlinked, (unlink_frees_exactly tidy.owned.exclusive tight unlinked).mpr (fun inum found => ?_)⟩
  have target : inum = 1 := by
    have same := Except.ok.inj (found.symm.trans lookup)
    omega
  rw [target, if_pos live]
  right
  rintro ⟨i, a⟩ frees
  rw [target] at found
  rcases (frees_iff found _).mp frees with rfl | ⟨_, emptied⟩
  · by_contra real
    exact real (empty a (Inode.ptr_lt real))
  · rw [Int.toNat_zero, kept] at emptied
    cases emptied

/-- The data region starts at block 4, and a new directory has block 5. Removing it clears
bit 5, not bit 1: the block is nobody's and stays marked. -/
theorem unlink_leaks_block : ∃ u w, Run (call .host) Removeless smallest [.creat 0 0 (letter 97 (by decide)) zeros] u ∧
    mkfs 32 32 ⟨fun _ => 0, zeros⟩ = .ok smallestDisk ∧
    ufsInit .host smallestDisk 0 (fun _ => 0) (fun _ => 0) = .ok smallest ∧ Exclusive u.ref ∧ u.Tight ∧
    ufsUnlink .host u 0 (letter 97 (by decide)) zeros = .ok (0, w) ∧ w.used 5 ∧ (∀ slot, w.ref slot ≠ some 5) ∧
    ¬ FreesExactly .host u 0 (letter 97 (by decide)) w := by
  obtain ⟨u, run, check⟩ := run_of_check (call .host) Removeless (fun _ c => !c.removes) smallest
    [.creat 0 0 (letter 97 (by decide)) zeros]
    (fun u => decide ((ufsUnlink .host u 0 (letter 97 (by decide)) zeros).map
      (fun r => (r.1, r.2.s.dr, decide (1 < r.2.s.nd), getBitmap r.2.dataBp 1)) = .ok (0, 4, true, true)) &&
      decide (ufsLookup .host u 0 (letter 97 (by decide)) = .ok 1) && decide (u.allocated 1) &&
      decide ((u.inodes 1).ptr 0 = 5))
    (fun _ c test => by cases c with | unlink => cases test | _ => trivial) (by decide +kernel)
  simp only [Bool.and_eq_true, decide_eq_true_eq] at check
  obtain ⟨⟨⟨unlink, lookup⟩, live⟩, ptr⟩ := check
  obtain ⟨⟨r, w⟩, unlinked, same⟩ := map_ok.mp unlink
  simp only [Prod.mk.injEq, decide_eq_true_eq] at same
  obtain ⟨rfl, region, inside, bit⟩ := same
  obtain ⟨⟨_, tidy⟩, tight⟩ := Run.tidy (smallest_fresh .host) run
  obtain ⟨inum, freed⟩ := ufsUnlink_givenUp unlinked
  have held : u.ref (1, 0) = some 5 := ref_eq_some.mpr ⟨live, by rw [ptr]; decide, by rw [ptr]; rfl⟩
  have marked : w.used 5 := ⟨1, inside, by omega, bit⟩
  have nobody : ∀ slot, w.ref slot ≠ some 5 := by
    intro slot still
    obtain ⟨old, kept⟩ := (freed.slots slot 5).mp still
    cases tidy.owned.exclusive slot (1, 0) 5 old held
    exact kept (Or.inl lookup)
  refine ⟨u, w, run, smallest_formatted, smallest_mounted .host, tidy.owned.exclusive, tight, unlinked, marked, nobody,
    fun exactly => ?_⟩
  obtain ⟨slot, still⟩ := (exactly.tight 5).mp marked
  exact nobody slot still

end Icix
