import Mathlib.Data.List.Find
import Icix.Fs.Twins

/-! The calls on twins: every check reads the same, every update is made to both, and both
commits leave the same disk. -/
namespace Icix
open Bytes Runs Lifting

/-- The same reply, in twins. -/
def Alike (b : Build) {α : Type} (x y : α × Ufs) : Prop := x.1 = y.1 ∧ Twin b x.2 y.2

namespace Twin

variable {b : Build} {u v : Ufs} (twin : Twin b u v)
include twin

theorem lookup (pinum : Int) (name : CString) : ufsLookup b v pinum name = ufsLookup b u pinum name := by
  rw [lookup_checks, lookup_checks, twin.s]
  by_cases range : pinum < 0 ∨ u.s.numInodes.toInt ≤ pinum
  · rw [if_pos range, if_pos range]
  · have inside := (ni_of_range (s := u.s) (i := pinum) (by omega) (by omega)).1
    rw [twin.inodeBit (by omega) (by omega), twin.inode _ inside, twin.disk]

theorem read (inum : Int) (buffer : Nat → Byte) (offset nbytes : Int) :
    ufsRead b v inum buffer offset nbytes = ufsRead b u inum buffer offset nbytes := by
  rw [read_checks, read_checks, twin.s]
  by_cases range : inum < 0 ∨ u.s.numInodes.toInt ≤ inum
  · rw [if_pos range, if_pos range]
  · have inside := (ni_of_range (s := u.s) (i := inum) (by omega) (by omega)).1
    rw [twin.inodeBit (by omega) (by omega), twin.inode _ inside, twin.disk]

theorem newBlock (k : Nat) : v.newBlock k = u.newBlock k := by
  rw [Ufs.newBlock, Ufs.newBlock, twin.s]

theorem firstClearData : firstClearData v = firstClearData u := by
  unfold Icix.firstClearData
  rw [twin.s]
  exact List.find?_congr fun k mem => by rw [twin.dataBit (List.mem_range.mp mem)]

theorem emptyPosInode : emptyPosInode v = emptyPosInode u := by
  unfold Icix.emptyPosInode
  rw [twin.s]
  refine List.find?_congr fun i mem => ?_
  have inside := List.mem_range.mp mem
  rw [getBitmap_congr (twin.inodeWord (i / 32) (by omega))]

theorem emptyPosData : emptyPosData v = emptyPosData u := by
  unfold Icix.emptyPosData
  rw [twin.s]
  refine List.foldl_ext _ _ _ fun found k mem => ?_
  rw [twin.dataBit (List.mem_range.mp mem)]

end Twin

theorem entry_offset (j : Nat) : BitVec.ofNat 32 (32 * j) = BitVec.ofNat 32 j * 32 := by
  rw [Nat.mul_comm, BitVec.ofNat_mul]
  rfl

theorem emptied_slot {s : Super} {n : Inode} {a : Nat} (ha : a < 30) (placed : n.Placed s) :
    (n.setPtr a (-1)).Placed s := by
  intro c real
  rw [Inode.ptr_setPtr _ ha] at real ⊢
  split
  · rename_i same
    rw [if_pos same] at real
    exact absurd rfl real
  · rename_i other
    rw [if_neg other] at real
    exact placed c real

/-- Twins in which a call works on inode i. -/
structure Focus (b : Build) (i : Nat) (u v : Ufs) : Prop extends Twin b u v where
  touched : Touched i u v
  inside : i < u.s.ni
  placed : (u.inodes i).Placed u.s

namespace Focus

variable {b : Build} {i : Nat} {u v : Ufs} (focus : Focus b i u v)
include focus

theorem here : v.inodes i = u.inodes i := focus.inode i focus.inside

theorem setInode {n : Inode} (placed : n.Placed u.s) : Focus b i (u.setInode i n) (v.setInode i n) where
  toTwin := focus.toTwin.setInode focus.touched placed
  touched := focus.touched
  inside := focus.inside
  placed := by
    have inode : (u.setInode i n).inodes i = n := Function.update_self ..
    rw [inode]
    exact placed

theorem markData {k : Nat} (hk : k < u.s.nd) : Focus b i (markData u k) (markData v k) :=
  ⟨focus.toTwin.markData hk, focus.touched, focus.inside, focus.placed⟩

theorem putBytes {a n : Nat} (inside : ∀ k < n, u.s.InData (a + k)) (src : Nat → Byte) :
    Focus b i (u.putBytes a n src) (v.putBytes a n src) :=
  ⟨focus.toTwin.putBytes inside src, focus.touched, focus.inside, focus.placed⟩

/-- A write into a block of the inode. -/
theorem store {a off n : Nat} (real : (u.inodes i).ptr a ≠ -1) (positive : 0 < n) (within : off + n ≤ 4096)
    (src : Nat → Byte) : ∃ d, Write b u.disk ((u.inodes i).ptr a * 4096 + BitVec.ofNat 32 off) src n = some d ∧
      Focus b i { u with disk := d } { v with disk := d } := by
  refine ⟨_, region_write (focus.placed a real) focus.left.sound positive within src, ?_⟩
  have stored := focus.putBytes (a := 4096 * ((u.inodes i).ptr a).toNat + off) (n := n) (fun k hk => by
    have range := focus.placed a real
    unfold Super.InData
    omega) src
  rwa [Ufs.putBytes, Ufs.putBytes, focus.disk] at stored

theorem ensureBlock {a : Nat} (ha : a < 30) :
    (Icix.ensureBlock u i a = none ∧ Icix.ensureBlock v i a = none) ∨
    ∃ w x, Icix.ensureBlock u i a = some w ∧ Icix.ensureBlock v i a = some x ∧ Focus b i w x ∧
      (w.inodes i).ptr a ≠ -1 := by
  unfold Icix.ensureBlock
  rw [focus.here, focus.firstClearData]
  split
  · cases found : Icix.firstClearData u with
    | none => exact .inl ⟨rfl, rfl⟩
    | some k =>
      have free := firstClearData_some found
      refine .inr ⟨_, _, rfl, rfl, ?_, ?_⟩ <;> dsimp only
      · rw [focus.newBlock]
        exact (focus.markData free.1).setInode (newBlock_placed focus.left.sound free.1 ha focus.placed)
      · have inode : ((Icix.markData u k).setInode i ((u.inodes i).setPtr a (u.newBlock k))).inodes i =
            (u.inodes i).setPtr a (u.newBlock k) := Function.update_self ..
        rw [inode, Inode.ptr_setPtr _ ha, if_pos rfl]
        exact newBlock_real focus.left.sound free.1
  · rename_i real
    exact .inr ⟨u, v, rfl, rfl, focus, real⟩

theorem writeLoop (buf : Nat → Byte) (nbytes left cur : Nat) {off : Nat} (lt : off < 4096) :
    Lifts (Alike b) (writeLoop b i buf nbytes left cur off u) (writeLoop b i buf nbytes left cur off v) := by
  induction left generalizing u v cur off with
  | zero => exact .ok ⟨rfl, focus.toTwin⟩
  | succ left ih =>
    unfold Icix.writeLoop
    refine Lifts.ite (fun _ => .ok ⟨rfl, focus.toTwin⟩) (fun more => ?_)
    have slot : 29 - left < 30 := by omega
    rcases focus.ensureBlock slot with ⟨noneU, noneV⟩ | ⟨w, x, someU, someV, next, real⟩
    · simp only [noneU, noneV]
      exact .ok ⟨rfl, focus.toTwin⟩
    · have positive : 0 < min (nbytes - cur) (4096 - off) := by omega
      have within : off + min (nbytes - cur) (4096 - off) ≤ 4096 := by omega
      obtain ⟨d, write, stored⟩ := next.store real positive within (view buf cur)
      simp only [someU, someV, next.here, next.disk, write]
      have grown := stored.setInode
        (n := { w.inodes i with size := (w.inodes i).size + BitVec.ofNat 32 (min (nbytes - cur) (4096 - off)) })
        stored.placed
      exact ih grown _ (Nat.succ_pos 4095)

theorem linkBlock {k : Nat} (hk : k < u.s.nd) :
    Focus b i (Icix.linkBlock u i (u.newBlock k)) (Icix.linkBlock v i (u.newBlock k)) := by
  unfold Icix.linkBlock
  rw [focus.here]
  cases free : firstFreePtr (u.inodes i) with
  | none => exact focus
  | some a => exact focus.setInode (newBlock_placed focus.left.sound hk (firstFreePtr_some free).1 focus.placed)

theorem withDirectory (pinum : Nat) (stk : Stack) {k : Nat} (hk : k < u.s.nd) :
    Twin b (Icix.withDirectory b u pinum i k stk) (Icix.withDirectory b v pinum i k stk) := by
  unfold Icix.withDirectory
  rw [focus.s, focus.here, focus.newBlock]
  have linked := newBlock_placed (n := { u.inodes i with size := 64 }) focus.left.sound hk (Nat.succ_pos 29) focus.placed
  exact (((focus.setInode linked).markData hk).putBytes (fun x hx => newBlock_data hk x hx) _).toTwin

theorem appendBlock (inum : Nat) (name : CString) (stk : Stack) {k : Nat} (hk : k < u.s.nd) :
    Lifts (Focus b i) (appendBlock b u i inum k name stk) (appendBlock b v i inum k name stk) := by
  unfold Icix.appendBlock
  refine Lifts.bind_same (fun data => ?_)
  have linked := ((focus.putBytes (fun x hx => newBlock_data hk x hx) data).markData hk).linkBlock hk
  simp only [focus.newBlock, focus.disk, newBlock_write (b := b) focus.left.sound hk data]
  rw [Ufs.putBytes, Ufs.putBytes, focus.disk] at linked
  exact .ok linked

theorem placeEntry (inum : Nat) (name : CString) (stk : Stack) (left : Nat) :
    Lifts (Focus b i) (placeEntry b u i inum name stk left) (placeEntry b v i inum name stk left) := by
  induction left with
  | zero => exact .ok focus
  | succ left ih =>
    unfold Icix.placeEntry
    rw [focus.here, focus.disk]
    dsimp only
    by_cases empty : (u.inodes i).ptr (29 - left) = -1
    · have none : 0 < 4096 := by decide
      have fail := Read_minus_one (b := b) focus.left.sound.disk_le none none
      rw [show BitVec.ofNat 32 0 = 0#32 from rfl, BitVec.add_zero] at fail
      simp only [empty, fail]
      exact .error _
    · simp only [region_block (focus.placed _ empty) focus.left.sound]
      split
      · exact ih
      · rename_i j unused
        have inside : j < 128 := List.mem_range.mp (List.mem_of_find?_eq_some unused)
        refine Lifts.bind_same (fun dent => ?_)
        obtain ⟨d, write, stored⟩ := focus.store empty (Nat.succ_pos 31) (by omega : 32 * j + 32 ≤ 4096) dent
        rw [entry_offset] at write
        simp only [write]
        exact .ok stored

theorem finishCreat : Lifts (Alike b) (finishCreat b u i) (finishCreat b v i) := by
  unfold Icix.finishCreat
  rw [focus.here]
  have grown := focus.setInode (n := { u.inodes i with size := (u.inodes i).size + 32 }) focus.placed
  exact Lifts.bind (grown.commitOrExit _) fun w x both => .ok ⟨rfl, both⟩

theorem releasePtr (p : Word) : Lifts (Focus b i) (releasePtr u p) (releasePtr v p) := by
  have size : v.dataBpSz = u.dataBpSz := congrArg (fun s : Super => getBitmapSz s.numData.toInt) focus.s
  unfold Icix.releasePtr
  rw [size]
  exact Lifts.ite (fun _ => .ok ⟨focus.toTwin.released p, focus.touched, focus.inside, focus.placed⟩)
    (fun _ => .error _)

theorem releasePtrs (inode : Inode) (left : Nat) :
    Lifts (Focus b i) (releasePtrs inode left u) (releasePtrs inode left v) := by
  induction left generalizing u v with
  | zero => exact .ok focus
  | succ left ih =>
    unfold Icix.releasePtrs
    exact Lifts.ite (fun _ => ih focus) (fun _ => Lifts.bind (focus.releasePtr _) fun w x next => ih next)

theorem dropEntry (name : CString) (stk : Stack) (left : Nat) :
    Lifts (Twin b) (dropEntry b u i name stk left) (dropEntry b v i name stk left) := by
  induction left with
  | zero => exact .ok focus.toTwin
  | succ left ih =>
    unfold Icix.dropEntry
    rw [focus.here, focus.disk]
    dsimp only
    refine Lifts.ite (fun _ => ih) (fun real => ?_)
    simp only [region_block (focus.placed _ real) focus.left.sound]
    cases scan : scanBlock _ name 128 (none, 0) with
    | error e => exact .error e
    | ok out =>
      obtain ⟨found, cnt⟩ := out
      cases found with
      | none => exact ih
      | some j =>
        refine Lifts.ite (fun _ => ?_) (fun _ => ?_)
        · refine Lifts.bind (focus.releasePtr _) (fun w x next => .ok ?_)
          rw [next.here]
          exact (next.setInode (emptied_slot (by omega) next.placed)).toTwin
        · have inside : j < 128 := scanBlock_lt scan j rfl
          obtain ⟨d, write, stored⟩ := focus.store real (Nat.succ_pos 31) (by omega : 32 * j + 32 ≤ 4096)
            (putWord stk.dent 28 (-1))
          rw [entry_offset] at write
          simp only [write]
          exact .ok stored.toTwin

end Focus

namespace Twin

variable {b : Build} {u v : Ufs} (twin : Twin b u v)
include twin

theorem focus {i : Nat} (live : u.allocated i) : Focus b i (Icix.markDirty u i) (Icix.markDirty v i) where
  toTwin := twin.markDirty i
  touched := ⟨markDirty_dirty u _, markDirty_dirty v _⟩
  inside := live.1
  placed a real := twin.left.placed i a live real

theorem write (inum : Int) (buf : Nat → Byte) (offset nbytes : Int) :
    Lifts (Alike b) (ufsWrite b u inum buf offset nbytes) (ufsWrite b v inum buf offset nbytes) := by
  unfold ufsWrite
  rw [twin.s]
  refine Lifts.ite (fun _ => .ok ⟨rfl, twin⟩) (fun range => ?_)
  have inside := (ni_of_range (s := u.s) (i := inum) (by omega) (by omega)).1
  rw [twin.inodeBit (by omega) (by omega), twin.inode _ inside]
  refine Lifts.ite (fun _ => .ok ⟨rfl, twin⟩) (fun bit => ?_)
  have live : u.allocated inum.toNat := allocated_of_bit (by omega) (by omega) (by simpa using bit)
  refine Lifts.ite (fun _ => .ok ⟨rfl, twin⟩) (fun _ => ?_)
  refine Lifts.bind ((twin.focus live).writeLoop buf nbytes.toNat _ 0 (Nat.mod_lt _ (Nat.succ_pos 4095)))
    (fun out out' both => ?_)
  obtain ⟨done, w⟩ := out
  obtain ⟨done', x⟩ := out'
  obtain ⟨same, next⟩ := both
  cases same
  dsimp only
  refine Lifts.ite (fun _ => .ok ⟨rfl, next⟩) (fun _ => ?_)
  exact Lifts.bind (next.commitOrExit _) fun w x both => .ok ⟨rfl, both⟩

theorem updateParent {pinum : Nat} (live : u.allocated pinum) (inum : Nat) {data : Option Nat}
    (range : ∀ k, data = some k → k < u.s.nd) (full : Bool) (name : CString) (stk : Stack) :
    Lifts (Alike b) (updateParent b u pinum inum data full name stk) (updateParent b v pinum inum data full name stk) := by
  have focus := twin.focus live
  unfold Icix.updateParent
  dsimp only
  refine Lifts.ite (fun _ => ?_) (fun _ => Lifts.bind (focus.placeEntry inum name stk 30) fun w x next => next.finishCreat)
  cases data with
  | none => exact .ok ⟨rfl, focus.toTwin⟩
  | some k =>
    dsimp only
    rw [focus.here]
    refine Lifts.ite (fun _ => .ok ⟨rfl, focus.toTwin⟩) (fun _ => ?_)
    exact Lifts.bind (focus.appendBlock inum name stk (range k rfl)) fun w x next => next.finishCreat

/-- Twins after the claim of inode i. -/
theorem claimed {i : Nat} (hi : i < u.s.ni) (clear : getBitmap u.inodeBp i = false) (type : Word) :
    Focus b i (Icix.claimInode u i type) (Icix.claimInode v i type) where
  toTwin := twin.claimInode hi clear type
  touched := ⟨by simp [Icix.claimInode], by simp [Icix.claimInode]⟩
  inside := hi
  placed a real := absurd (claimInode_ptr u i type a) real

theorem creatAt {pinum inum : Nat} (live : u.allocated pinum) (hi : inum < u.s.ni)
    (clear : getBitmap u.inodeBp inum = false) (type : Word) (name : CString) (stk : Stack) :
    Lifts (Alike b) (creatAt b u pinum inum (Icix.emptyPosData u) type name stk)
      (creatAt b v pinum inum (Icix.emptyPosData u) type name stk) := by
  have focus := twin.claimed hi clear type
  have parent : (Icix.claimInode u inum type).allocated pinum := (claimInode_allocated hi type pinum).mpr (.inr live)
  have scanned := emptyPosData_scanned u
  unfold Icix.creatAt
  dsimp only
  rw [focus.inode pinum parent.1, focus.disk, focus.here]
  refine Lifts.ite (fun _ => .ok ⟨rfl, focus.toTwin⟩) (fun _ => Lifts.bind_same fun full => ?_)
  refine Lifts.ite (fun _ => ?_) (fun _ => ?_)
  · cases first : (Icix.emptyPosData u).1 with
    | none => exact .ok ⟨rfl, focus.toTwin⟩
    | some k =>
      have hk := (scanned.first k first).1
      refine Lifts.ite (fun _ => .ok ⟨rfl, focus.toTwin⟩) (fun _ => ?_)
      rw [makeDirectory_ok focus.left.sound hk, makeDirectory_ok focus.right.sound (focus.s ▸ hk), ok_bind, ok_bind]
      have made := focus.withDirectory pinum stk hk
      exact made.updateParent parent inum (fun k second => (scanned.second k second).1) full name stk
  · have emptied := focus.setInode (n := { (Icix.claimInode u inum type).inodes inum with size := 0 }) focus.placed
    exact emptied.updateParent parent inum (fun k first => (scanned.first k first).1) full name stk

theorem creat (pinum : Int) (type : Word) (name : CString) (stk : Stack) :
    Lifts (Alike b) (ufsCreat b u pinum type name stk) (ufsCreat b v pinum type name stk) := by
  unfold ufsCreat
  rw [twin.s]
  refine Lifts.ite (fun _ => .ok ⟨rfl, twin⟩) (fun range => ?_)
  have inside := (ni_of_range (s := u.s) (i := pinum) (by omega) (by omega)).1
  rw [twin.inodeBit (by omega) (by omega), twin.inode _ inside]
  refine Lifts.ite (fun _ => .ok ⟨rfl, twin⟩) (fun bit => ?_)
  have live : u.allocated pinum.toNat := allocated_of_bit (by omega) (by omega) (by simpa using bit)
  refine Lifts.ite (fun _ => .ok ⟨rfl, twin⟩) (fun _ => ?_)
  refine Lifts.ite (fun _ => .ok ⟨rfl, twin⟩) (fun _ => ?_)
  rw [twin.lookup, twin.emptyPosInode, twin.emptyPosData]
  refine Lifts.bind_same (fun found => Lifts.ite (fun _ => .ok ⟨rfl, twin⟩) (fun _ => ?_))
  cases free : Icix.emptyPosInode u with
  | none => exact .ok ⟨rfl, twin⟩
  | some inum =>
    obtain ⟨hi, clear⟩ := emptyPosInode_some free
    exact twin.creatAt live hi clear type name stk

theorem unlinkAt {pinum : Nat} (live : u.allocated pinum) (inum : Int) (name : CString) (stk : Stack) :
    Lifts (Alike b) (unlinkAt b u pinum inum name stk) (unlinkAt b v pinum inum name stk) := by
  unfold Icix.unlinkAt
  rw [twin.s]
  refine Lifts.ite (fun _ => .error _) (fun range => ?_)
  obtain ⟨inside, index⟩ := ni_of_range (s := u.s) (i := inum) (by omega) (by omega)
  dsimp only
  rw [twin.inode _ inside]
  refine Lifts.ite (fun _ => .ok ⟨rfl, twin⟩) (fun _ => ?_)
  have focus : Focus b pinum (Icix.unmarked u pinum inum.toNat) (Icix.unmarked v pinum inum.toNat) := by
    refine ⟨twin.unmarked pinum inside, ⟨?_, ?_⟩, live.1, fun a real => twin.left.placed pinum a live real⟩ <;>
      simp [Icix.unmarked]
  rw [Icix.unmarked, Icix.unmarked, index, twin.s] at focus
  refine Lifts.bind (focus.releasePtrs _ 30) (fun w x next => ?_)
  rw [next.here]
  have shrunk := next.setInode (n := { w.inodes pinum with size := (w.inodes pinum).size - 32 }) next.placed
  refine Lifts.bind (shrunk.dropEntry name stk 30) (fun w x dropped => ?_)
  exact Lifts.bind (dropped.commitOrExit _) fun w x both => .ok ⟨rfl, both⟩

theorem unlink (pinum : Int) (name : CString) (stk : Stack) :
    Lifts (Alike b) (ufsUnlink b u pinum name stk) (ufsUnlink b v pinum name stk) := by
  unfold ufsUnlink
  rw [twin.s]
  refine Lifts.ite (fun _ => .ok ⟨rfl, twin⟩) (fun range => ?_)
  rw [twin.inodeBit (by omega) (by omega)]
  refine Lifts.ite (fun _ => .ok ⟨rfl, twin⟩) (fun bit => ?_)
  have live : u.allocated pinum.toNat := allocated_of_bit (by omega) (by omega) (by simpa using bit)
  refine Lifts.ite (fun _ => .ok ⟨rfl, twin⟩) (fun _ => Lifts.ite (fun _ => .ok ⟨rfl, twin⟩) (fun _ => ?_))
  rw [twin.lookup]
  exact Lifts.bind_same fun inum => Lifts.ite (fun _ => .ok ⟨rfl, twin⟩) fun _ => twin.unlinkAt live inum name stk

end Twin

end Icix
