import Icix.Fs.Directory

/-! ufs_unlink in phases: the bits of the file's blocks are cleared, then the entry
is dropped from the parent. The bits are those at the blocks' addresses, which
is not where set_bitmap put them: nothing here says that they are the blocks'. -/
namespace Icix
open Bytes Ownership

/- releasePtr inside the array. -/
def released (u : Ufs) (p : Word) : Ufs :=
  { u with dataBp := resetBitmap u.dataBp p.toInt, dirtyDataBp := setBitmap u.dirtyDataBp p.toInt }

theorem Marked.released (u : Ufs) (p : Word) : Marked u (released u p) where
  s := rfl
  outside _ _ := rfl
  dirtyInodes _ bit := bit
  dirtyData k bit := by rw [Icix.released, get_set, bit, Bool.or_true]
  inodeBit _ differs := absurd rfl differs
  inode _ differs := absurd rfl differs
  dataBit k differs := by
    by_cases same : SameBit p.toInt k
    · simp only [Icix.released, get_set, same, decide_true, Bool.true_or]
    · exact absurd (by simp only [Icix.released, get_reset, same, decide_false, Bool.not_false,
        Bool.true_and]) differs

/-- The blocks of slots from, .., 29 have been released. -/
structure Released (u : Ufs) (inode : Inode) (start : Nat) (v : Ufs) : Prop where
  marked : Marked u v
  inodeBp : v.inodeBp = u.inodeBp
  inodes : v.inodes = u.inodes
  dirty : v.dirtyInodeBp = u.dirtyInodeBp
  disk : v.disk = u.disk
  bits : ∀ k : Nat, getBitmap v.dataBp k = true ↔ getBitmap u.dataBp k = true ∧
    ∀ a, start ≤ a → inode.ptr a ≠ -1 → ¬ SameBit (inode.ptr a).toInt k

theorem releasePtrs_released {inode : Inode} {left : Nat} {u v : Ufs} (le : left ≤ 30)
    (returned : releasePtrs inode left u = .ok v) : Released u inode (30 - left) v := by
  induction left generalizing u with
  | zero =>
    cases Except.ok.inj returned
    refine ⟨.refl _, rfl, rfl, rfl, rfl, fun k => ⟨fun bit => ⟨bit, fun a above real => ?_⟩, And.left⟩⟩
    have inside := Inode.ptr_lt real
    omega
  | succ left ih =>
    have split : ∀ a, 30 - (left + 1) ≤ a ↔ a = 29 - left ∨ 30 - left ≤ a := by omega
    unfold releasePtrs at returned
    by_cases empty : inode.ptr (29 - left) = -1
    · rw [if_pos empty] at returned
      have rest := ih (by omega) returned
      refine ⟨rest.marked, rest.inodeBp, rest.inodes, rest.dirty, rest.disk, fun k => (rest.bits k).trans
        (and_congr_right fun _ => ⟨fun all a above real => ?_, fun all a above => ?_⟩)⟩
      · rcases (split a).mp above with rfl | above
        · exact absurd empty real
        · exact all a above real
      · exact all a ((split a).mpr (Or.inr above))
    · rw [if_neg empty] at returned
      obtain ⟨w, first, returned⟩ := Runs.bind_ok.mp returned
      have rest := ih (by omega) returned
      unfold releasePtr at first
      split at first
      · cases Except.ok.inj first
        refine ⟨(Marked.released u _).trans rest.marked, rest.inodeBp, rest.inodes, rest.dirty, rest.disk,
          fun k => (rest.bits k).trans ?_⟩
        simp only [get_reset, Bool.and_eq_true, Bool.not_eq_true', decide_eq_false_iff_not, and_assoc]
        constructor
        · rintro ⟨apart, bit, all⟩
          refine ⟨bit, fun a above real => ?_⟩
          rcases (split a).mp above with rfl | above
          · exact apart
          · exact all a above real
        · rintro ⟨bit, all⟩
          exact ⟨all _ ((split _).mpr (Or.inl rfl)) empty, bit, fun a above => all a ((split a).mpr (Or.inr above))⟩
      · cases first

/- An entry of a block that is in use. -/
def usedEntry (block : Nat → Byte) (j : Nat) : Bool := decide (entInum (view block (32 * j)) ≠ -1)

/-- What the scan of a block's entries start, .., 127 adds to what was found before them. -/
structure Searched (block : Nat → Byte) (name : CString) (start : Nat) (found out : Option Nat × Nat) : Prop where
  count : out.2 = found.2 + (List.range' start (128 - start)).countP (usedEntry block)
  hit : ∀ j, out.1 = some j → found.1 = some j ∨
    start ≤ j ∧ j < 128 ∧ usedEntry block j = true ∧ Holds (view block (32 * j)) name.chars
  miss : out.1 = none → found.1 = none ∧ ∀ j, start ≤ j → j < 128 → usedEntry block j = true →
    name.chars.length < 32 → ¬ Holds (view block (32 * j)) name.chars

namespace Searched

variable {block : Nat → Byte} {name : CString} {j : Nat} {found out : Option Nat × Nat} (hj : j < 128)
include hj

/-- An unused entry adds nothing. -/
theorem skip (unused : usedEntry block j = false) (rest : Searched block name (j + 1) found out) :
    Searched block name j found out where
  count := by
    have length : 128 - j = 128 - (j + 1) + 1 := by omega
    rw [rest.count, length, List.range'_succ, List.countP_cons_of_neg (by simp [unused])]
  hit k h := by
    rcases rest.hit k h with before | ⟨low, later⟩
    · exact Or.inl before
    · exact Or.inr ⟨Nat.le_of_succ_le low, later⟩
  miss h := by
    refine ⟨(rest.miss h).1, fun k low high used => ?_⟩
    rcases Nat.eq_or_lt_of_le low with rfl | low
    · rw [unused] at used
      cases used
    · exact (rest.miss h).2 k low high used

/-- A used one is counted, and is the last hit when it has the name. -/
theorem turn {r : Int} (used : usedEntry block j = true)
    (run : strcmp (4096 - 32 * j) (view block (32 * j)) name.mem = some r)
    (rest : Searched block name (j + 1) (if r = 0 then some j else found.1, found.2 + 1) out) :
    Searched block name j found out where
  count := by
    have length : 128 - j = 128 - (j + 1) + 1 := by omega
    rw [rest.count, length, List.range'_succ, List.countP_cons_of_pos used]
    omega
  hit k h := by
    rcases rest.hit k h with now | ⟨low, later⟩
    · dsimp only at now
      split at now
      · rename_i same
        cases Option.some.inj now
        obtain ⟨cs, holds, named, _⟩ := strcmp_zero (same ▸ run)
        exact Or.inr ⟨Nat.le_refl j, hj, used, holds_unique named name.holds ▸ holds⟩
      · exact Or.inl now
    · exact Or.inr ⟨Nat.le_of_succ_le low, later⟩
  miss h := by
    obtain ⟨before, later⟩ := rest.miss h
    dsimp only at before
    split at before
    · cases before
    · rename_i differs
      refine ⟨before, fun k low high usedK short holds => ?_⟩
      rcases Nat.eq_or_lt_of_le low with rfl | low
      · have within : name.chars.length < 4096 - 32 * j := by omega
        obtain ⟨r', run', zero⟩ := strcmp_holds holds name.holds (Or.inl within)
        rw [run] at run'
        cases Option.some.inj run'
        exact differs (zero.mpr rfl)
      · exact later k low high usedK short holds

end Searched

theorem scanBlock_spec {block : Nat → Byte} {name : CString} {left : Nat} {found out : Option Nat × Nat}
    (le : left ≤ 128) (returned : scanBlock block name left found = .ok out) :
    Searched block name (128 - left) found out := by
  induction left generalizing found with
  | zero =>
    cases Except.ok.inj returned
    exact ⟨rfl, fun j h => Or.inl h, fun h => ⟨h, fun j low high => absurd high (Nat.not_lt_of_le low)⟩⟩
  | succ left ih =>
    obtain ⟨entry, cnt⟩ := found
    have hj : 127 - left < 128 := by omega
    have start : 128 - (left + 1) = 127 - left := by omega
    have next : 128 - left = 127 - left + 1 := by omega
    rw [next] at ih
    unfold scanBlock at returned
    dsimp only at returned
    rw [start]
    split at returned
    · rename_i unused
      exact Searched.skip hj (decide_eq_false (not_not.mpr unused)) (ih (by omega) returned)
    · rename_i used
      split at returned
      · cases returned
      · rename_i r run
        exact Searched.turn hj (decide_eq_true used) run (ih (by omega) returned)

theorem scanBlock_lt {block : Nat → Byte} {name : CString} {out : Option Nat × Nat}
    (returned : scanBlock block name 128 (none, 0) = .ok out) : ∀ j, out.1 = some j → j < 128 := by
  intro j h
  rcases (scanBlock_spec (Nat.le_refl 128) returned).hit j h with before | inside
  · cases before
  · exact inside.2.1

/-- The slots below a have no block with an entry of that name. -/
def Ufs.Missing (u : Ufs) (pinum : Nat) (name : CString) (a : Nat) : Prop :=
  ∀ c < a, (u.inodes pinum).ptr c ≠ -1 → ∃ cnt, scanBlock (u.block pinum c) name 128 (none, 0) = .ok (none, cnt)

/- The entry's block is given up when the entry is the only one there, else the
entry is overwritten with an unused one. -/
inductive Dropped (u : Ufs) (pinum : Nat) (name : CString) (stk : Stack) : Ufs → Prop
  | block {a j : Nat} (ha : a < 30) (before : u.Missing pinum name a) (real : (u.inodes pinum).ptr a ≠ -1)
      (scan : scanBlock (u.block pinum a) name 128 (none, 0) = .ok (some j, 1)) :
      Dropped u pinum name stk ((released u ((u.inodes pinum).ptr a)).setInode pinum
        ((u.inodes pinum).setPtr a (-1)))
  | entry {a j cnt : Nat} (ha : a < 30) (before : u.Missing pinum name a) (real : (u.inodes pinum).ptr a ≠ -1)
      (scan : scanBlock (u.block pinum a) name 128 (none, 0) = .ok (some j, cnt)) (more : cnt ≠ 1) :
      Dropped u pinum name stk
        (u.putBytes (4096 * ((u.inodes pinum).ptr a).toNat + 32 * j) 32 (putWord stk.dent 28 (-1)))
  | nowhere (missing : u.Missing pinum name 30) : Dropped u pinum name stk u

theorem dropEntry_dropped {b : Build} {u v : Ufs} {pinum : Nat} {name : CString} {stk : Stack} {left : Nat}
    (sound : u.Sound b) (le : left ≤ 30)
    (range : ∀ a, (u.inodes pinum).ptr a ≠ -1 → u.s.dr ≤ ((u.inodes pinum).ptr a).toNat ∧
      ((u.inodes pinum).ptr a).toNat < u.s.dr + u.s.nd)
    (before : u.Missing pinum name (30 - left))
    (returned : dropEntry b u pinum name stk left = .ok v) : Dropped u pinum name stk v := by
  induction left with
  | zero =>
    cases Except.ok.inj returned
    exact .nowhere before
  | succ left ih =>
    have index : 30 - (left + 1) = 29 - left := by omega
    rw [index] at before
    have next : (∀ real : (u.inodes pinum).ptr (29 - left) ≠ -1,
        ∃ cnt, scanBlock (u.block pinum (29 - left)) name 128 (none, 0) = .ok (none, cnt)) →
        u.Missing pinum name (30 - left) := by
      intro here c hc real
      by_cases last : c = 29 - left
      · subst last
        exact here real
      · exact before c (by omega) real
    unfold dropEntry at returned
    dsimp only at returned
    by_cases empty : (u.inodes pinum).ptr (29 - left) = -1
    · rw [if_pos empty] at returned
      exact ih (by omega) (next fun real => absurd empty real) returned
    · rw [if_neg empty] at returned
      have inRegion := range _ empty
      have read : Read b u.disk ((u.inodes pinum).ptr (29 - left) * 4096) 4096 =
          some (u.block pinum (29 - left)) := region_block inRegion sound
      simp only [read] at returned
      obtain ⟨out, scan, returned⟩ := Runs.bind_ok.mp returned
      obtain ⟨found, cnt⟩ := out
      cases found with
      | none => exact ih (by omega) (next fun _ => ⟨cnt, scan⟩) returned
      | some j =>
        have inside : j < 128 := scanBlock_lt scan j rfl
        dsimp only at returned
        by_cases only : cnt = 1
        · subst cnt
          rw [if_pos rfl] at returned
          obtain ⟨w, release, returned⟩ := Runs.bind_ok.mp returned
          unfold releasePtr at release
          split at release
          · cases Except.ok.inj release
            cases Except.ok.inj returned
            exact .block (by omega) before empty scan
          · cases release
        · rw [if_neg only] at returned
          have offset : BitVec.ofNat 32 j * 32 = BitVec.ofNat 32 (32 * j) := by
            rw [Nat.mul_comm, BitVec.ofNat_mul]
            rfl
          have within : 32 * j + 32 ≤ 4096 := by omega
          rw [offset, region_write inRegion sound (Nat.succ_pos 31) within] at returned
          cases Except.ok.inj returned
          exact .entry (by omega) before empty scan only

section Drop

variable {b : Build} {u x : Ufs} {pinum : Nat} {name : CString} {stk : Stack}

theorem Dropped.s (dropped : Dropped u pinum name stk x) : x.s = u.s ∧ x.disk.len = u.disk.len ∧
    x.inodeBp = u.inodeBp := by
  cases dropped <;> exact ⟨rfl, rfl, rfl⟩

theorem Dropped.marked (dirty : getBitmap u.dirtyInodeBp pinum = true)
    (range : ∀ a, (u.inodes pinum).ptr a ≠ -1 → u.s.dr ≤ ((u.inodes pinum).ptr a).toNat ∧
      ((u.inodes pinum).ptr a).toNat < u.s.dr + u.s.nd)
    (dropped : Dropped u pinum name stk x) : Marked u x := by
  cases dropped with
  | @block a => exact (Marked.released u _).trans (.setInode (released u ((u.inodes pinum).ptr a)) dirty _)
  | @entry a j cnt ha before real scan =>
    have inside : j < 128 := scanBlock_lt scan j rfl
    have region := range a real
    refine .putBytes (fun k hk => ?_) _
    unfold Super.InData
    omega
  | nowhere => exact .refl u

/-- The parent keeps its type and its other pointers; no other inode changes. -/
theorem Dropped.inodes (dropped : Dropped u pinum name stk x) :
    (∀ j, j ≠ pinum → x.inodes j = u.inodes j) ∧ (x.inodes pinum).type = (u.inodes pinum).type ∧
      (x.inodes pinum).size = (u.inodes pinum).size ∧
      ∀ a, (x.inodes pinum).ptr a ≠ -1 → (x.inodes pinum).ptr a = (u.inodes pinum).ptr a := by
  cases dropped with
  | @block a j ha =>
    have inode : ((released u ((u.inodes pinum).ptr a)).setInode pinum ((u.inodes pinum).setPtr a (-1))).inodes
        pinum = (u.inodes pinum).setPtr a (-1) := Function.update_self ..
    rw [inode]
    refine ⟨fun j hj => Function.update_of_ne hj _ _, Inode.type_setPtr _ _ _, Inode.size_setPtr _ _ _,
      fun c real => ?_⟩
    rw [Inode.ptr_setPtr _ ha] at real ⊢
    split at real
    · exact absurd rfl real
    · rename_i other
      rw [if_neg other]
  | entry => exact ⟨fun _ _ => rfl, rfl, rfl, fun _ _ => rfl⟩
  | nowhere => exact ⟨fun _ _ => rfl, rfl, rfl, fun _ _ => rfl⟩

end Drop

/- The state in which ufs_unlink starts to release the blocks of inode inum, and the
one with the parent's new size. -/
def unmarked (u : Ufs) (pinum inum : Nat) : Ufs :=
  { u with
    inodeBp := resetBitmap u.inodeBp inum
    dirtyInodeBp := setBitmap (setBitmap u.dirtyInodeBp inum) pinum }

def shrunk (u : Ufs) (pinum : Nat) : Ufs :=
  u.setInode pinum { u.inodes pinum with size := (u.inodes pinum).size - 32 }

/-- The checks of ufs_unlink before it removes inode inum. -/
structure Ufs.Removable (b : Build) (u : Ufs) (pinum : Int) (name : CString) (inum : Nat) : Prop where
  low : 0 ≤ pinum
  live : u.allocated pinum.toNat
  notDot : name.chars ≠ [46]
  notDotdot : name.chars ≠ [46, 46]
  found : ufsLookup b u pinum name = .ok inum
  inside : inum < u.s.ni
  empty : (u.inodes inum).type = ufsDirectory → (u.inodes inum).size = 64

/-- A call of ufs_unlink that has removed inode inum from pinum. -/
structure Unlinked (b : Build) (u : Ufs) (pinum inum : Nat) (name : CString) (stk : Stack) (w : Ufs) : Prop where
  live : u.allocated pinum
  found : ufsLookup b u pinum name = .ok inum
  ends : ∃ v x, Released (unmarked u pinum inum) (u.inodes inum) 0 v ∧
    Dropped (shrunk v pinum) pinum name stk x ∧ Committed x w

theorem unmarked_marked (u : Ufs) (pinum inum : Nat) : Marked u (unmarked u pinum inum) where
  s := rfl
  outside _ _ := rfl
  dirtyInodes j bit := by simp only [unmarked, get_set_nat, bit, Bool.or_true]
  dirtyData _ bit := bit
  inodeBit j differs := by
    by_cases same : j = inum
    · simp only [unmarked, get_set_nat, same, decide_true, Bool.true_or, Bool.or_true]
    · exact absurd (by simp only [unmarked, get_reset_nat, same, decide_false, Bool.not_false,
        Bool.true_and]) differs
  inode _ differs := absurd rfl differs
  dataBit _ differs := absurd rfl differs

theorem shrunk_ptr {u v : Ufs} {pinum inum : Nat}
    (gone : Released (unmarked u pinum inum) (u.inodes inum) 0 v) (i a : Nat) :
    ((shrunk v pinum).inodes i).ptr a = (u.inodes i).ptr a := by
  have same : v.inodes i = u.inodes i := congrFun gone.inodes i
  by_cases parent : i = pinum
  · subst i
    have inode : (shrunk v pinum).inodes pinum =
        { v.inodes pinum with size := (v.inodes pinum).size - 32 } := Function.update_self ..
    rw [inode, same]
    rfl
  · have other : (shrunk v pinum).inodes i = v.inodes i := Function.update_of_ne parent _ _
    rw [other, same]

theorem shrunk_range {u v : Ufs} {pinum inum : Nat} (placed : u.Placed) (live : u.allocated pinum)
    (gone : Released (unmarked u pinum inum) (u.inodes inum) 0 v) (a : Nat)
    (real : ((shrunk v pinum).inodes pinum).ptr a ≠ -1) :
    (shrunk v pinum).s.dr ≤ (((shrunk v pinum).inodes pinum).ptr a).toNat ∧
      (((shrunk v pinum).inodes pinum).ptr a).toNat < (shrunk v pinum).s.dr + (shrunk v pinum).s.nd := by
  have s : (shrunk v pinum).s = u.s := gone.marked.s
  rw [shrunk_ptr gone] at real ⊢
  rw [s]
  exact placed pinum a live real

section Dots

variable {name : CString} {stk : Stack}

theorem strcmp_dot : strcmp 2 name.mem (dot stk.rodata).mem = some 0 ↔ name.chars = [46] := by
  obtain ⟨c, run, zero⟩ : ∃ c, strcmp 2 _ _ = some c ∧ _ :=
    strcmp_holds name.holds (dot stk.rodata).holds (Or.inr (Nat.lt_succ_self 1))
  rw [run, Option.some.injEq]
  exact zero

theorem strcmp_dotdot : strcmp 3 name.mem (dotdot stk.rodata).mem = some 0 ↔ name.chars = [46, 46] := by
  obtain ⟨c, run, zero⟩ : ∃ c, strcmp 3 _ _ = some c ∧ _ :=
    strcmp_holds name.holds (dotdot stk.rodata).holds (Or.inr (Nat.lt_succ_self 2))
  rw [run, Option.some.injEq]
  exact zero

end Dots

/-- The calls of ufs_unlink that return: those that refuse, and the phases of the others. -/
theorem ufsUnlink_phases {b : Build} {u w : Ufs} {pinum : Int} {name : CString} {stk : Stack} {r : Int}
    (returned : ufsUnlink b u pinum name stk = .ok (r, w)) :
    (r = -1 ∧ w = u) ∨
    (r = 0 ∧ ∃ inum v x, u.Removable b pinum name inum ∧
      releasePtrs (u.inodes inum) 30 (unmarked u pinum.toNat inum) = .ok v ∧
      dropEntry b (shrunk v pinum.toNat) pinum.toNat name stk 30 = .ok x ∧
      commitOrExit b x "ufs_unlink commit dirty to disk fail" = .ok w) := by
  have unchanged : (Except.ok (-1, u) : Except Fault (Int × Ufs)) = .ok (r, w) → r = -1 ∧ w = u := by
    intro same
    obtain ⟨rfl, rfl⟩ := Prod.mk.inj (Except.ok.inj same)
    exact ⟨rfl, rfl⟩
  unfold ufsUnlink at returned
  split at returned
  · exact Or.inl (unchanged returned)
  · rename_i range
    split at returned
    · exact Or.inl (unchanged returned)
    · rename_i bit
      have live : u.allocated pinum.toNat := allocated_of_bit (by omega) (by omega) (by simpa using bit)
      split at returned
      · exact Or.inl (unchanged returned)
      · rename_i notDot
        split at returned
        · exact Or.inl (unchanged returned)
        · rename_i notDotdot
          obtain ⟨inum, lookup, returned⟩ := Runs.bind_ok.mp returned
          split at returned
          · exact Or.inl (unchanged returned)
          · unfold unlinkAt at returned
            split at returned
            · cases returned
            · rename_i outside
              have target : ((inum.toNat : Nat) : Int) = inum := by omega
              dsimp only at returned
              split at returned
              · exact Or.inl (unchanged returned)
              · rename_i empty
                obtain ⟨v, release, returned⟩ := Runs.bind_ok.mp returned
                obtain ⟨x, drop, returned⟩ := Runs.bind_ok.mp returned
                obtain ⟨w', commit, returned⟩ := Runs.bind_ok.mp returned
                obtain ⟨rfl, rfl⟩ := Prod.mk.inj (Except.ok.inj returned)
                rw [← target] at release
                have found : ufsLookup b u pinum name = .ok (inum.toNat : Int) := by rw [target, lookup]
                have removable : u.Removable b pinum name inum.toNat := by
                  refine ⟨by omega, live, mt strcmp_dot.mpr notDot, mt strcmp_dotdot.mpr notDotdot, found, ?_, fun dir => ?_⟩
                  · unfold Super.ni
                    omega
                  · by_contra size
                    exact empty ⟨dir, size⟩
                exact Or.inr ⟨rfl, inum.toNat, v, x, removable, release, drop, commit⟩

theorem ufsUnlink_cases {b : Build} {u w : Ufs} {pinum : Int} {name : CString} {stk : Stack} {r : Int}
    (sound : u.Sound b) (placed : u.Placed) (returned : ufsUnlink b u pinum name stk = .ok (r, w)) :
    (r = -1 ∧ w = u) ∨
    (r = 0 ∧ ∃ inum, u.Removable b pinum name inum ∧ Unlinked b u pinum.toNat inum name stk w) := by
  rcases ufsUnlink_phases returned with refused | ⟨zero, inum, v, x, removable, release, drop, commit⟩
  · exact Or.inl refused
  · have live := removable.live
    have parent : ((pinum.toNat : Nat) : Int) = pinum := Int.toNat_of_nonneg removable.low
    have gone : Released (unmarked u pinum.toNat inum) (u.inodes inum) 0 v :=
      releasePtrs_released (Nat.le_refl 30) release
    have s : (shrunk v pinum.toNat).s = u.s := gone.marked.s
    have len : (shrunk v pinum.toNat).disk.len = u.disk.len := congrArg Disk.len gone.disk
    have soundV : (shrunk v pinum.toNat).Sound b := by
      rw [Ufs.Sound, s, len]
      exact sound
    have dropped := dropEntry_dropped soundV (Nat.le_refl 30)
      (shrunk_range placed live gone) (fun c hc => absurd hc (Nat.not_lt_zero c)) drop
    have soundX : x.Sound b := by
      rw [Ufs.Sound, dropped.s.1, dropped.s.2.1]
      exact soundV
    obtain ⟨w', commit', committed⟩ := commitOrExit_ok soundX "ufs_unlink commit dirty to disk fail"
    rw [commit] at commit'
    cases Except.ok.inj commit'
    exact Or.inr ⟨zero, inum, removable, live, parent.symm ▸ removable.found, v, x, gone, dropped, committed⟩

/- What an unlink leaves of the inodes and of the pointers. -/
section Effect

variable {b : Build} {u w : Ufs} {pinum inum : Nat} {name : CString} {stk : Stack}
  (unlinked : Unlinked b u pinum inum name stk w)
include unlinked

theorem Unlinked.s : w.s = u.s ∧ w.disk.len = u.disk.len ∧ w.inodeBp = resetBitmap u.inodeBp inum := by
  obtain ⟨v, x, gone, dropped, committed⟩ := unlinked.ends
  have drop := dropped.s
  refine ⟨committed.step.s.trans (drop.1.trans gone.marked.s), ?_, ?_⟩
  · exact committed.step.len.trans (drop.2.1.trans (congrArg Disk.len gone.disk))
  · exact committed.step.inodeBp.trans (drop.2.2.trans gone.inodeBp)

theorem Unlinked.allocated (j : Nat) : w.allocated j ↔ j ≠ inum ∧ u.allocated j := by
  obtain ⟨s, _, bitmap⟩ := unlinked.s
  unfold Ufs.allocated
  rw [s, bitmap, get_reset_nat, Bool.and_eq_true, Bool.not_eq_true', decide_eq_false_iff_not]
  exact and_left_comm

theorem Unlinked.inodes : (∀ j, j ≠ pinum → w.inodes j = u.inodes j) ∧
    (w.inodes pinum).type = (u.inodes pinum).type ∧
    (w.inodes pinum).size = (u.inodes pinum).size - 32 ∧
    ∀ a, (w.inodes pinum).ptr a ≠ -1 → (w.inodes pinum).ptr a = (u.inodes pinum).ptr a := by
  obtain ⟨v, x, gone, dropped, committed⟩ := unlinked.ends
  obtain ⟨other, type, size, ptr⟩ := dropped.inodes
  have inode : (shrunk v pinum).inodes pinum =
      { u.inodes pinum with size := (u.inodes pinum).size - 32 } := by
    have same : v.inodes pinum = u.inodes pinum := congrFun gone.inodes pinum
    exact (Function.update_self ..).trans (by rw [same])
  rw [committed.step.inodes]
  refine ⟨fun j hj => ?_, by rw [type, inode], by rw [size, inode], fun a real => ?_⟩
  · exact (other j hj).trans ((Function.update_of_ne hj _ _).trans (congrFun gone.inodes j))
  · exact (ptr a real).trans (shrunk_ptr gone pinum a)

theorem Unlinked.placed (placed : u.Placed) : w.Placed := by
  obtain ⟨other, _, _, ptr⟩ := unlinked.inodes
  intro i a live real
  have liveU := ((unlinked.allocated i).mp live).2
  rw [unlinked.s.1]
  by_cases same : i = pinum
  · subst i
    have before := ptr a real
    rw [before] at real ⊢
    exact placed pinum a liveU real
  · rw [other i same] at real ⊢
    exact placed i a liveU real

theorem Unlinked.flushed (placed : u.Placed) : Flushed u w := by
  obtain ⟨v, x, gone, dropped, committed⟩ := unlinked.ends
  have dirty : getBitmap v.dirtyInodeBp pinum = true := by
    rw [gone.dirty]
    exact get_set_self _ pinum
  have marks : Marked u (shrunk v pinum) :=
    ((unmarked_marked u pinum inum).trans gone.marked).trans (.setInode v dirty _)
  exact ⟨x, marks.trans (dropped.marked dirty (shrunk_range placed unlinked.live gone)), committed⟩

end Effect

/- The bits that are cleared when the blocks of inode inum are released. -/
def Cleared (u : Ufs) (inum k : Nat) : Prop :=
  ∃ c, (u.inodes inum).ptr c ≠ -1 ∧ SameBit ((u.inodes inum).ptr c).toInt k

/-- The three ways an unlink leaves the parent, in terms of the state before it. -/
inductive Removed (u : Ufs) (pinum inum : Nat) (name : CString) (stk : Stack) (w : Ufs) : Prop
  | block {a j : Nat} (ha : a < 30) (before : u.Missing pinum name a) (real : (u.inodes pinum).ptr a ≠ -1)
      (scan : scanBlock (u.block pinum a) name 128 (none, 0) = .ok (some j, 1))
      (ptr : ∀ c, (w.inodes pinum).ptr c = if c = a then -1 else (u.inodes pinum).ptr c)
      (bits : ∀ k : Nat, getBitmap w.dataBp k = true ↔ getBitmap u.dataBp k = true ∧ ¬ Cleared u inum k ∧
        ¬ SameBit ((u.inodes pinum).ptr a).toInt k)
      (bytes : ∀ x, ¬ u.s.InMeta x → w.disk.byte x = u.disk.byte x)
  | entry {a j cnt : Nat} (ha : a < 30) (before : u.Missing pinum name a) (real : (u.inodes pinum).ptr a ≠ -1)
      (scan : scanBlock (u.block pinum a) name 128 (none, 0) = .ok (some j, cnt)) (more : cnt ≠ 1)
      (ptr : ∀ c, (w.inodes pinum).ptr c = (u.inodes pinum).ptr c)
      (bits : ∀ k : Nat, getBitmap w.dataBp k = true ↔ getBitmap u.dataBp k = true ∧ ¬ Cleared u inum k)
      (bytes : ∀ x, ¬ u.s.InMeta x → w.disk.byte x =
        blit u.disk.byte (4096 * ((u.inodes pinum).ptr a).toNat + 32 * j) 32 (putWord stk.dent 28 (-1)) x)
  | nowhere (missing : u.Missing pinum name 30)
      (ptr : ∀ c, (w.inodes pinum).ptr c = (u.inodes pinum).ptr c)
      (bits : ∀ k : Nat, getBitmap w.dataBp k = true ↔ getBitmap u.dataBp k = true ∧ ¬ Cleared u inum k)
      (bytes : ∀ x, ¬ u.s.InMeta x → w.disk.byte x = u.disk.byte x)

theorem block_congr {u v : Ufs} {i a : Nat} (disk : v.disk = u.disk)
    (ptr : (v.inodes i).ptr a = (u.inodes i).ptr a) : v.block i a = u.block i a := by
  unfold Ufs.block
  rw [disk, ptr]

theorem missing_congr {u v : Ufs} {pinum a : Nat} {name : CString} (disk : v.disk = u.disk)
    (ptr : ∀ c, (v.inodes pinum).ptr c = (u.inodes pinum).ptr c) (missing : v.Missing pinum name a) :
    u.Missing pinum name a := by
  intro c hc real
  have here := missing c hc (by rw [ptr]; exact real)
  rwa [block_congr disk (ptr c)] at here

theorem Unlinked.removed {b : Build} {u w : Ufs} {pinum inum : Nat} {name : CString} {stk : Stack}
    (unlinked : Unlinked b u pinum inum name stk w) : Removed u pinum inum name stk w := by
  obtain ⟨v, x, gone, dropped, committed⟩ := unlinked.ends
  have disk : (shrunk v pinum).disk = u.disk := gone.disk
  have ptr := shrunk_ptr gone pinum
  have s : (shrunk v pinum).s = u.s := gone.marked.s
  have outside : ∀ y, ¬ u.s.InMeta y → w.disk.byte y = x.disk.byte y := by
    intro y hy
    refine committed.step.outside y ?_
    rw [dropped.s.1, s]
    exact hy
  have cleared : ∀ k : Nat, getBitmap v.dataBp k = true ↔ getBitmap u.dataBp k = true ∧ ¬ Cleared u inum k := by
    intro k
    refine (gone.bits k).trans (and_congr_right fun _ => ⟨?_, ?_⟩)
    · rintro all ⟨c, real, same⟩
      exact all c (Nat.zero_le c) real same
    · exact fun none c _ real same => none ⟨c, real, same⟩
  have inodes : ∀ c, (w.inodes pinum).ptr c = (x.inodes pinum).ptr c := fun c => by rw [committed.step.inodes]
  have bits : ∀ k : Nat, getBitmap w.dataBp k = getBitmap x.dataBp k := fun k => by rw [committed.step.dataBp]
  cases dropped with
  | @block a j ha before real scan =>
    rw [ptr] at real
    rw [block_congr disk (ptr a)] at scan
    refine .block ha (missing_congr disk ptr before) real scan (fun c => ?_) (fun k => ?_) (fun y hy => ?_)
    · rw [inodes]
      have inode := (congrArg (Inode.ptr · c) (Function.update_self pinum
        (((shrunk v pinum).inodes pinum).setPtr a (-1)) (shrunk v pinum).inodes)).trans
          (Inode.ptr_setPtr _ ha _ c)
      rw [ptr] at inode
      exact inode
    · rw [bits]
      have reset : getBitmap (resetBitmap v.dataBp ((u.inodes pinum).ptr a).toInt) k = true ↔
          getBitmap v.dataBp k = true ∧ ¬ SameBit ((u.inodes pinum).ptr a).toInt k := by
        rw [get_reset, Bool.and_eq_true, Bool.not_eq_true', decide_eq_false_iff_not, and_comm]
      rw [← ptr a] at reset ⊢
      exact reset.trans (by rw [cleared, and_assoc])
    · exact (outside y hy).trans (congrFun (congrArg Disk.byte disk) y)
  | @entry a j cnt ha before real scan more =>
    rw [ptr] at real
    rw [block_congr disk (ptr a)] at scan
    refine .entry ha (missing_congr disk ptr before) real scan more (fun c => (inodes c).trans (ptr c))
      (fun k => ?_) (fun y hy => ?_)
    · rw [bits]
      exact cleared k
    · rw [outside y hy, ← ptr a, ← disk]
      rfl
  | nowhere missing =>
    refine .nowhere (missing_congr disk ptr missing) (fun c => (inodes c).trans (ptr c)) (fun k => ?_)
      (fun y hy => (outside y hy).trans (congrFun (congrArg Disk.byte disk) y))
    rw [bits]
    exact cleared k

end Icix
