import Icix.Fs.Alike
import Icix.Fs.Format

/-! Mounting again is invisible: where memory and disk agree, a run that mounts the disk anew
goes on as the run that does not. -/
namespace Icix
open Bytes Runs Lifting

/-- What a call hands to its caller. -/
inductive Answer where
  | creat (r : Creat)
  | code (rc : Int)
  | bytes (rc : Int) (buffer : Nat → Byte)

def answer (b : Build) (u : Ufs) : Call → Except Fault (Answer × Ufs)
  | .creat pinum type name stk => (ufsCreat b u pinum type name stk).map fun out => (.creat out.1, out.2)
  | .write inum buf offset nbytes => (ufsWrite b u inum buf offset nbytes).map fun out => (.code out.1, out.2)
  | .read inum buffer offset nbytes => (ufsRead b u inum buffer offset nbytes).map fun out => (.bytes out.1 out.2, u)
  | .lookup pinum name => (ufsLookup b u pinum name).map fun inum => (.code inum, u)
  | .unlink pinum name stk => (ufsUnlink b u pinum name stk).map fun out => (.code out.1, out.2)

theorem call_of_answer (b : Build) (u : Ufs) (c : Call) : call b u c = (answer b u c).map Prod.snd := by
  cases c <;> simp only [call, answer]
  case creat => cases ufsCreat .. <;> rfl
  case write => cases ufsWrite .. <;> rfl
  case read => cases ufsRead .. <;> rfl
  case lookup => cases ufsLookup .. <;> rfl
  case unlink => cases ufsUnlink .. <;> rfl

theorem Twin.answer {b : Build} {u v : Ufs} (twin : Twin b u v) (c : Call) :
    Lifts (Alike b) (Icix.answer b u c) (Icix.answer b v c) := by
  cases c with
  | creat pinum type name stk =>
    exact (twin.creat pinum type name stk).map fun x y both => ⟨congrArg Answer.creat both.1, both.2⟩
  | write inum buf offset nbytes =>
    exact (twin.write inum buf offset nbytes).map fun x y both => ⟨congrArg Answer.code both.1, both.2⟩
  | read inum buffer offset nbytes =>
    simp only [Icix.answer, twin.read]
    exact (Lifts.refl (fun _ => rfl) _).map fun x y same => ⟨congrArg (fun out => Answer.bytes out.1 out.2) same, twin⟩
  | lookup pinum name =>
    simp only [Icix.answer, twin.lookup]
    exact (Lifts.refl (fun _ => rfl) _).map fun x y same => ⟨congrArg Answer.code same, twin⟩
  | unlink pinum name stk =>
    exact (twin.unlink pinum name stk).map fun x y both => ⟨congrArg Answer.code both.1, both.2⟩

/-- A step of a session: a call, whose answer is noted, or the disk mounted anew. -/
inductive Use where
  | call (c : Call)
  | mount (dirtyInodeBp dirtyDataBp : Bitmap)

def Use.calls : Use → Bool
  | .call _ => true
  | .mount .. => false

def serve (b : Build) (s : Ufs × List Answer) : Use → Except Fault (Ufs × List Answer)
  | .call c => (answer b s.1 c).map fun out => (out.2, s.2 ++ [out.1])
  | .mount dirtyInodeBp dirtyDataBp => (ufsInit b s.1.disk 0 dirtyInodeBp dirtyDataBp).map fun v => (v, s.2)

theorem Agree.symm {u v : Ufs} (agree : Agree u v) : Agree v u where
  s := agree.s.symm
  inodeWord w hw := (agree.inodeWord w (agree.s ▸ hw)).symm
  dataWord w hw := (agree.dataWord w (agree.s ▸ hw)).symm
  inode i hi := (agree.inode i (agree.s ▸ hi)).symm

/-- The image's bitmaps hold one bit, also past the last inode and block. -/
theorem Ufs.Fresh.kept {b : Build} {numInodes numData : Int} {stk : MkfsStack} {d : Disk}
    {dirtyInodeBp dirtyDataBp : Bitmap} {u : Ufs}
    (small : 4096 * imageBlocks numInodes.toNat numData.toNat < 2147483648)
    (formatted : mkfs numInodes numData stk = .ok d)
    (mounted : ufsInit b d 0 dirtyInodeBp dirtyDataBp = .ok u) : u.Kept b := by
  have fresh := fresh_of_mount small formatted mounted
  refine ⟨fresh.sound, fresh.owned.placed, fresh.tracked, ?_⟩
  have geometry := geometry_of_mkfs small formatted
  rw [mkfs_ok geometry] at formatted
  cases Except.ok.inj formatted
  rw [ufsInit_image geometry] at mounted
  cases Except.ok.inj mounted
  have words := mkfsSuper_placement geometry
  refine ⟨fun i _ _ => rfl, fun k past inside => ?_⟩
  have positive := fresh.blocks_pos
  have small := words.small
  have fits := words.dataBitmap_le
  have clear := image_dataBits words (4096 * imageBlocks numInodes.toNat numData.toNat) stk (k := k) (by
    rw [getBitmapSz_nat (by omega), insideBitmap_nat]
    have count : (mkfsSuper numInodes numData).nd = numData.toNat := by
      rw [Super.nd, words.blocks, Int.toNat_natCast]
    exact count ▸ inside)
  have zero : decide (k = 0) = false := decide_eq_false (by omega)
  rw [zero] at clear
  exact ⟨clear, clear⟩

/-- A disk that agrees with memory mounts to a twin of the state that goes on without. -/
theorem Twin.mount {b : Build} {u v : Ufs} (twin : Twin b u v) (synced : u.Synced) (dirtyInodeBp dirtyDataBp : Bitmap) :
    Twin b (mounted u.disk u.s dirtyInodeBp dirtyDataBp) v := by
  have spare := twin.left.spare
  have agree : Agree (mounted u.disk u.s dirtyInodeBp dirtyDataBp) v :=
    ⟨twin.s, fun w hw => (twin.inodeWord w hw).trans (synced.inodeWord spare hw).symm,
      fun w hw => (twin.dataWord w hw).trans (synced.dataWord spare hw).symm,
      fun i hi => (twin.inode i hi).trans ((synced.inode i hi).symm.trans
        ((mounted_synced u.disk u.s dirtyInodeBp dirtyDataBp).inode i hi))⟩
  have again := mounted_synced u.disk u.s dirtyInodeBp dirtyDataBp
  refine ⟨agree, ⟨twin.left.sound, agree.symm.placed twin.right.placed, ⟨?_, ?_, ?_⟩, fun i _ _ => rfl, fun k past inside => ?_⟩,
    twin.right, twin.disk⟩
  · exact fun i hi differs => absurd (again.inodeBit i hi) differs
  · exact fun i hi differs => absurd (again.inode i hi) differs
  · exact fun k hk differs => absurd (again.dataBit k hk) differs
  · have clear := (spare.data k past inside).2
    exact ⟨clear, clear⟩

/-- What a session with mounts and one without have in common. -/
def Abreast (b : Build) (s t : Ufs × List Answer) : Prop := s.2 = t.2 ∧ s.1.Steady b ∧ Twin b s.1 t.1

section Abreast

variable {b : Build} {s t : Ufs × List Answer}

theorem Abreast.call (abreast : Abreast b s t) (c : Call) :
    Lifts (Abreast b) (serve b s (.call c)) (serve b t (.call c)) := by
  obtain ⟨same, steady, twin⟩ := abreast
  refine (twin.answer c).returned.map fun x y ⟨⟨reply, next⟩, returned⟩ => ?_
  have taken : Icix.call b s.1 c = .ok x.2 := by
    rw [call_of_answer, returned]
    rfl
  exact ⟨by rw [same, reply], steady.call taken, next⟩

theorem Abreast.mount {dirtyInodeBp dirtyDataBp : Bitmap} {s' : Ufs × List Answer} (abreast : Abreast b s t)
    (synced : s.1.Synced) (served : serve b s (.mount dirtyInodeBp dirtyDataBp) = .ok s') : Abreast b s' t := by
  obtain ⟨same, steady, twin⟩ := abreast
  have table := steady.sound.inodeTable_le
  have outside := steady.outside
  have again := ufsInit_ok (by omega) steady.header steady.sound steady.inodes_pos steady.blocks_pos
    dirtyInodeBp dirtyDataBp
  obtain ⟨v, init, rfl⟩ := map_ok.mp served
  rw [again] at init
  cases Except.ok.inj init
  have next := twin.mount synced dirtyInodeBp dirtyDataBp
  exact ⟨same, ⟨steady.sound, steady.inodes_pos, steady.blocks_pos, steady.outside, steady.header,
    next.left.placed, next.left.tracked⟩, next⟩

end Abreast

end Icix
