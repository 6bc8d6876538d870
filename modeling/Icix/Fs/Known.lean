import Icix.Library.Cells
import Icix.Fs.Release
import Icix.Fs.Extend

/-! The bytes of the regular files over runs. What a file may hold follows from what the calls
returned: a write that returned 0 leaves its bytes, one that ran out of blocks may have left
some, and creations, other files' writes and harmless unlinks leave everything as it was. -/
namespace Icix
open Bytes Ownership Runs Cells

/-- The byte at s.2 of the regular file s.1, where it has a block. -/
def Ufs.cell (u : Ufs) (s : Nat × Nat) : Option Byte :=
  if u.allocated s.1 ∧ (u.inodes s.1).type = ufsRegularFile ∧ (u.inodes s.1).ptr (s.2 / 4096) ≠ -1 then
    some (u.fileByte s.1 s.2)
  else none

theorem cell_eq_some {u : Ufs} {i x : Nat} {c : Byte} : u.cell (i, x) = some c ↔
    (u.allocated i ∧ (u.inodes i).type = ufsRegularFile ∧ (u.inodes i).ptr (x / 4096) ≠ -1) ∧ u.fileByte i x = c := by
  unfold Ufs.cell
  split
  · rename_i held
    exact ⟨fun same => ⟨held, Option.some.inj same⟩, fun h => congrArg some h.2⟩
  · rename_i free
    exact ⟨fun same => (by cases same), fun h => absurd h.1 free⟩

/- The bytes of a range of file i, as far as the pointers of an inode reach. -/
def span (i start n : Nat) : Set (Nat × Nat) := {s | s.1 = i ∧ start ≤ s.2 ∧ s.2 < start + n ∧ s.2 < 122880}

open Classical in
/-- What the files may hold after a call from u to w, from what they might hold before it. -/
noncomputable def learn (b : Build) (u : Ufs) (c : Call) (w : Ufs) (p : Known (Nat × Nat) Byte) :
    Known (Nat × Nat) Byte :=
  let p := match c with
    | .write inum buf offset nbytes =>
      if u.Writable inum offset nbytes then
        if (ufsWrite b u inum buf offset nbytes).map Prod.fst = Except.ok 0 then
          p.store (span inum.toNat offset.toNat nbytes.toNat) fun s => buf (s.2 - offset.toNat)
        else p.mayStore (span inum.toNat offset.toNat nbytes.toNat) fun s => buf (s.2 - offset.toNat)
      else p
    | _ => p
  p.forget {s | ¬ (u.allocated s.1 ∧ w.allocated s.1)}

/- A step keeps the files that stay allocated when it keeps their inodes and bytes. -/
theorem cell_kept {u w : Ufs} {i x : Nat} {c : Byte} (live : w.allocated i) (inode : w.inodes i = u.inodes i)
    (byte : w.fileByte i x = u.fileByte i x) (held : u.cell (i, x) = some c) : w.cell (i, x) = some c := by
  obtain ⟨⟨-, regular, real⟩, value⟩ := cell_eq_some.mp held
  exact cell_eq_some.mpr ⟨⟨live, inode ▸ regular, inode ▸ real⟩, byte.trans value⟩

section Creat

variable {b : Build} {u v w x : Ufs} {p inum : Nat} {type : Word} {name : CString} {stk : Stack} {r : Creat}
  {full : Bool}

/-- A parent's new entry changes no byte of another inode. -/
theorem Entered.keeps (owned : u.Owned) (live : u.allocated p) (entered : Entered b u p inum name stk full x) :
    Keeps (fun q _ => q = p) u x := by
  cases entered with
  | @appended k hk clear =>
    refine (Keeps.putFresh owned clear (entryBytes b stk inum name)).trans (.same_disk (fun q live => ?_) ?_ ?_)
    · unfold linkBlock
      split <;> exact live
    · unfold linkBlock
      split <;> rfl
    · intro q a _ real
      unfold linkBlock
      split
      · rfl
      · rename_i c free
        by_cases same : q = p
        · subst q
          have empty := (firstFreePtr_some free).2.1
          have inode : (Ufs.setInode (withEntryBlock b u inum k name stk) p
              (((withEntryBlock b u inum k name stk).inodes p).setPtr c (u.newBlock k))).inodes p =
              ((withEntryBlock b u inum k name stk).inodes p).setPtr c (u.newBlock k) := Function.update_self ..
          have other : a ≠ c := by
            rintro rfl
            exact real empty
          rw [inode, Inode.ptr_setPtr _ (firstFreePtr_some free).1, if_neg other]
          rfl
        · exact congrArg (Inode.ptr · a) (Function.update_of_ne same _ _)
  | @placed a j ha before real unused =>
    have inside : j < 128 := List.mem_range.mp (List.mem_of_find?_eq_some unused)
    exact (Keeps.putHeld owned live real (by omega : 32 * j + 32 ≤ 4096) _).weaken fun q y skip => skip.1
  | nowhere => exact .refl _ u

/-- Nor does a creation, whatever the parent looks like. -/
theorem Created.keeps (sound : u.Sound b) (owned : u.Owned) (live : u.allocated p) (hi : inum < u.s.ni)
    (clear : getBitmap u.inodeBp inum = false) (created : Created b u p inum type name stk r w) :
    Keeps (fun q _ => q = p) u w := by
  cases r with
  | failed => exact (created.failed live hi clear).1
  | committed =>
    obtain ⟨_, claim, newC, _⟩ := Created.start (u := u) hi clear type
    generalize committed : Creat.committed = r at created
    cases created with
    | early => cases committed
    | nodata => cases committed
    | @entered full v x w room fullness prepared entered committed =>
      have soundC := (claim True).sound sound
      have ownedC := (claim True).owned owned
      have prepare := prepared.allocates (t := True) soundC newC (claimInode_ptr u inum type)
      have keepsC : Keeps (fun q _ => q = p) u (claimInode u inum type) := claimInode_keeps hi clear type
      have keeps := (keepsC.trans (prepared.keeps (claimInode_ptr u inum type) ownedC)).trans (markDirty_keeps v p)
      have ownedV := (markDirty_allocates (t := True) v p).owned (prepare.owned ownedC)
      have soundV : (markDirty v p).Sound b := prepare.sound soundC
      have liveV := keeps.allocated p live
      have step := entered.allocates soundV liveV
      have soundX : (grown x p).Sound b := step.sound soundV
      have placedX : (grown x p).Placed := (grown_allocates (t := True) x p).placed (step.placed ownedV.placed)
      have grow : Keeps (fun q _ => q = p) x (grown x p) := by
        refine .same_disk (fun _ live => live) rfl (fun q a _ _ => ?_)
        by_cases same : q = p
        · subst q
          have inode : (grown x p).inodes p = { x.inodes p with size := (x.inodes p).size + 32 } := Function.update_self ..
          rw [inode]
          rfl
        · exact congrArg (Inode.ptr · a) (Function.update_of_ne same _ _)
      exact ((keeps.trans (entered.keeps ownedV liveV)).trans grow).trans (committed.step.keeps soundX placedX)

/-- A creation keeps every regular file that there was. -/
theorem Created.cell (sound : u.Sound b) (owned : u.Owned) (live : u.allocated p)
    (dir : (u.inodes p).type = ufsDirectory) (hi : inum < u.s.ni) (clear : getBitmap u.inodeBp inum = false)
    (created : Created b u p inum type name stk r w) {i x : Nat} {c : Byte} (held : u.cell (i, x) = some c) :
    w.cell (i, x) = some c := by
  obtain ⟨⟨liveI, regular, real⟩, -⟩ := cell_eq_some.mp held
  have keeps := created.keeps sound owned live hi clear
  have apart : i ≠ p := by
    rintro rfl
    exact absurd (regular.symm.trans dir) (by decide)
  have old : i ≠ inum := by
    rintro rfl
    exact Bool.noConfusion (clear.symm.trans liveI.2)
  exact cell_kept (keeps.allocated i liveI) (created.other old apart) (keeps.byte i x liveI real apart) held

end Creat

/-- An unlink keeps every regular file but the one it removes. -/
theorem Unlinked.cell {b : Build} {u w : Ufs} {p inum : Nat} {name : CString} {stk : Stack} (sound : u.Sound b)
    (owned : u.Owned) (unlinked : Unlinked b u p inum name stk w) {i x : Nat} {c : Byte} (other : i ≠ inum)
    (held : u.cell (i, x) = some c) : w.cell (i, x) = some c := by
  obtain ⟨⟨live, regular, real⟩, -⟩ := cell_eq_some.mp held
  have dir : (u.inodes p).type = ufsDirectory := by
    have found := (lookup_ok unlinked.found).1
    exact found
  have apart : i ≠ p := by
    rintro rfl
    exact absurd (regular.symm.trans dir) (by decide)
  have inode := unlinked.inodes.1 i apart
  have data := held_data owned.placed live real (Nat.mod_lt x (Nat.succ_pos 4095))
  have outside : ¬ u.s.InMeta (4096 * ((u.inodes i).ptr (x / 4096)).toNat + x % 4096) :=
    fun inMeta => sound.meta_data _ inMeta data
  refine cell_kept ((unlinked.allocated i).mpr ⟨other, live⟩) inode ?_ held
  rw [Ufs.fileByte, inode]
  cases unlinked.removed with
  | block _ _ _ _ _ _ bytes => exact bytes _ outside
  | nowhere _ _ _ bytes => exact bytes _ outside
  | @entry a j cnt ha before realA scan more ptr bits bytes =>
    have inside : j < 128 := scanBlock_lt scan j rfl
    have held := Keeps.putHeld owned unlinked.live realA (by omega : 32 * j + 32 ≤ 4096) (putWord stk.dent 28 (-1))
    exact (bytes _ outside).trans (held.byte i x live real fun skip => apart skip.1)

section Write

variable {u w : Ufs} {i start n cur : Nat} {buf : Nat → Byte} (owned : u.Owned) (live : u.allocated i)
  (regular : (u.inodes i).type = ufsRegularFile) (writing : Writing u i buf start cur w)
include owned writing

/-- A write keeps every byte of a regular file but those that it has stored. -/
theorem Writing.cell {j x : Nat} {c : Byte} (outside : ¬ (j = i ∧ start ≤ x ∧ x < start + cur))
    (held : u.cell (j, x) = some c) : w.cell (j, x) = some c := by
  obtain ⟨⟨liveJ, type, real⟩, value⟩ := cell_eq_some.mp held
  refine cell_eq_some.mpr ⟨⟨(writing.allocated j).mpr liveJ, ?_, writing.held real ▸ real⟩,
    (writing.kept owned j x liveJ real (fun same => by omega)).trans value⟩
  by_cases same : j = i
  · rw [same, writing.type, ← same]
    exact type
  · rw [writing.other j same]
    exact type

include live regular

theorem Writing.cell_written {k : Nat} (done : k < cur) : w.cell (i, start + k) = some (buf k) :=
  cell_eq_some.mpr ⟨⟨(writing.allocated i).mpr live, writing.type.trans regular, writing.mapped k done⟩,
    writing.written owned k done⟩

end Write

/-- A write that passes its checks leaves what may then be held. -/
theorem Wrote.agrees {u w : Ufs} {i start n : Nat} {buf : Nat → Byte} {r : Int} {p : Known (Nat × Nat) Byte}
    (owned : u.Owned) (live : u.allocated i) (regular : (u.inodes i).type = ufsRegularFile)
    (wrote : Wrote u i buf start n r w) (agrees : Agrees u.cell p) :
    (r = 0 → Agrees w.cell (p.store (span i start n) fun s => buf (s.2 - start))) ∧
      Agrees w.cell (p.mayStore (span i start n) fun s => buf (s.2 - start)) := by
  obtain ⟨cur, writing, le, done⟩ : ∃ cur, Writing u i buf start cur w ∧ cur ≤ n ∧
      (r = 0 → cur = n ∨ 122880 ≤ start + cur) := by
    cases wrote with
    | all writing le ended => exact ⟨_, writing, le, fun _ => ended⟩
    | full writing less => exact ⟨_, writing, Nat.le_of_lt less, fun zero => by cases zero⟩
  have stored : ∀ x, start ≤ x → x < start + cur → w.cell (i, x) = some (buf (x - start)) := by
    intro x low high
    have index : start + (x - start) = x := Nat.add_sub_cancel' low
    have written := writing.cell_written owned live regular (by omega : x - start < cur)
    rwa [index] at written
  have keep : ∀ s : Nat × Nat, s ∉ span i start n → ∀ c, u.cell s = some c → w.cell s = some c := by
    rintro ⟨j, x⟩ away c held
    have reach := Inode.ptr_lt (cell_eq_some.mp held).1.2.2
    refine writing.cell owned (fun hit => away ⟨hit.1, hit.2.1, ?_, ?_⟩) held
    · dsimp only
      omega
    · dsimp only
      omega
  constructor
  · intro zero
    refine agrees.store ?_ keep
    rintro ⟨j, x⟩ ⟨rfl, low, high, reach⟩
    dsimp only at low high reach
    exact stored x low (by have := done zero; omega)
  · refine agrees.mayStore ?_ keep
    rintro ⟨j, x⟩ ⟨rfl, low, high, reach⟩ c held
    by_cases reached : x < start + cur
    · exact .inr (stored x low reached)
    · exact .inl (writing.cell owned (fun hit => reached hit.2.2) held)

/-- One call leaves what may then be held. -/
theorem learn_agrees {b : Build} {u w : Ufs} {c : Call} {p : Known (Nat × Nat) Byte} (sound : u.Sound b)
    (owned : u.Owned) (returned : call b u c = .ok w) (agrees : Agrees u.cell p) : Agrees w.cell (learn b u c w p) := by
  have same : ∀ v : Ufs, ∀ q, Agrees v.cell q → Agrees v.cell (q.forget {s | ¬ (u.allocated s.1 ∧ v.allocated s.1)}) :=
    fun v q agrees => agrees.forget fun _ _ _ held => held
  cases c with
  | creat pinum type name stk =>
    obtain ⟨⟨r, v⟩, run, last⟩ := bind_ok.mp returned
    cases Except.ok.inj last
    rcases ufsCreat_cases sound owned.placed run with ⟨-, rfl⟩ | ⟨inum, creatable, created⟩
    · exact same _ _ agrees
    · obtain ⟨hi, clear⟩ := emptyPosInode_some creatable.found
      refine same _ _ (agrees.keep fun ⟨i, x⟩ c held => ?_)
      exact created.cell sound owned creatable.live creatable.dir hi clear held
  | write inum buf offset nbytes =>
    obtain ⟨⟨r, v⟩, run, last⟩ := bind_ok.mp returned
    cases Except.ok.inj last
    refine same _ _ ?_
    dsimp only
    by_cases writable : u.Writable inum offset nbytes
    · obtain ⟨r', w', run', wrote⟩ := ufsWrite_spec buf sound owned.placed writable
      rw [run] at run'
      obtain ⟨rfl, rfl⟩ := Prod.mk.inj (Except.ok.inj run')
      obtain ⟨done, partly⟩ := wrote.agrees owned writable.allocated writable.regular agrees
      rw [if_pos writable, run]
      split
      · rename_i zero
        exact done (Except.ok.inj zero)
      · exact partly
    · rw [ufsWrite_unwritable writable] at run
      obtain ⟨-, rfl⟩ := Prod.mk.inj (Except.ok.inj run)
      rw [if_neg writable]
      exact agrees
  | read inum buffer offset nbytes =>
    obtain ⟨out, run, last⟩ := bind_ok.mp returned
    cases Except.ok.inj last
    exact same _ _ agrees
  | lookup pinum name =>
    obtain ⟨out, run, last⟩ := bind_ok.mp returned
    cases Except.ok.inj last
    exact same _ _ agrees
  | unlink pinum name stk =>
    obtain ⟨⟨r, v⟩, run, last⟩ := bind_ok.mp returned
    cases Except.ok.inj last
    rcases ufsUnlink_cases sound owned.placed run with ⟨-, rfl⟩ | ⟨-, inum, removable, unlinked⟩
    · exact same _ _ agrees
    · refine agrees.forget fun ⟨i, x⟩ stays c held => unlinked.cell sound owned ?_ held
      rintro rfl
      exact stays fun both => ((unlinked.allocated i).mp both.2).1 rfl

/-- Over every run whose unlinks are harmless, a read of a regular file that returns 0 delivers bytes
that the file may hold after what the calls returned: where a write that returned 0 covers a byte
and no later one does, that write's byte. A read that passes its checks returns 0 wherever
something is known of all bytes of its range. -/
theorem reads_what_was_written {b : Build} {numInodes numData : Int} {stk : MkfsStack} {d : Disk}
    {dirtyInodeBp dirtyDataBp : Bitmap} {u₀ u : Ufs} {p : Known (Nat × Nat) Byte} {calls : List Call}
    (small : 4096 * imageBlocks numInodes.toNat numData.toNat < 2147483648)
    (formatted : mkfs numInodes numData stk = .ok d)
    (mounted : ufsInit b d 0 dirtyInodeBp dirtyDataBp = .ok u₀)
    (run : Run (withGhost (call b) (learn b)) (fun s => Harmless b s.1) (u₀, .nothing) calls (u, p))
    {inum offset nbytes : Int} {buffer : Nat → Byte} (regular : (u.inodes inum.toNat).type = ufsRegularFile) :
    (∀ out, ufsRead b u inum buffer offset nbytes = .ok (0, out) →
      ∀ s ∈ span inum.toNat offset.toNat nbytes.toNat, out (s.2 - offset.toNat) ∈ p s) ∧
    (u.Readable inum offset nbytes → (∀ s ∈ span inum.toNat offset.toNat nbytes.toNat, p s ≠ Set.univ) →
      ∃ out, ufsRead b u inum buffer offset nbytes = .ok (0, out)) := by
  have fresh := fresh_of_mount small formatted mounted
  obtain ⟨sound, owned, agrees⟩ := run.invariant (fun s => s.1.Sound b ∧ s.1.Owned ∧ Agrees s.1.cell s.2)
    (fun s c t ⟨sound, owned, agrees⟩ harmless returned => by
      obtain ⟨w, took, rfl⟩ := map_ok.mp returned
      have effect := call_effect sound owned.placed took
      exact ⟨effect.sound sound owned.placed, effect.owned sound owned harmless, learn_agrees sound owned took agrees⟩)
    ⟨fresh.sound, fresh.owned, agrees_nothing _⟩
  constructor
  · rintro out read ⟨i, x⟩ ⟨rfl, low, high, reach⟩
    dsimp only at low high reach
    obtain ⟨readable, mapped, rfl⟩ := ufsRead_zero sound owned.placed read
    have index : offset.toNat + (x - offset.toNat) = x := Nat.add_sub_cancel' low
    have real := mapped (x - offset.toNat) (Nat.zero_le _) (by omega) (by omega)
    rw [index] at real
    refine agrees.mem (cell_eq_some.mpr ⟨⟨readable.allocated, regular, real⟩, ?_⟩)
    have range : 0 ≤ x - offset.toNat ∧ x - offset.toNat < nbytes.toNat ∧ offset.toNat + (x - offset.toNat) < 122880 := by
      omega
    rw [Ufs.filled, if_pos range, index]
  · intro readable known
    refine ⟨_, ufsRead_ok sound owned.placed readable fun k _ high reach => ?_⟩
    obtain ⟨c, held⟩ := agrees.isSome (known (inum.toNat, offset.toNat + k) ⟨rfl, Nat.le_add_right _ _, by dsimp only; omega, reach⟩)
    exact (cell_eq_some.mp held).1.2.2

/- A file is created and two bytes are written to it. -/
theorem reads_what_was_written_smallest : ∃ u p, Run (withGhost (call .host) (learn .host))
      (fun s => Harmless .host s.1) (smallest, .nothing)
      [.creat 0 1 (letter 97 (by decide)) zeros, .write 1 (fun _ => 7) 0 2] (u, p) ∧
    p (1, 0) = {7} ∧ ∀ out, ufsRead .host u 1 (fun _ => 0) 0 2 = .ok (0, out) → out 0 = 7 := by
  obtain ⟨u, made, check⟩ := run_of_check (call .host) (Harmless .host) (fun _ c => !c.removes) smallest
    [.creat 0 1 (letter 97 (by decide)) zeros]
    (fun u => match ufsWrite .host u 1 (fun _ => 7) 0 2 with
      | .ok (r, w) => decide (r = 0) && decide (u.allocated 1) && decide (w.allocated 1) &&
          decide ((w.inodes 1).type = ufsRegularFile)
      | .error _ => false)
    (fun _ c test => by cases c with | unlink => cases test | _ => trivial) (by decide +kernel)
  obtain ⟨q, made⟩ := made.ghost (learn .host) Known.nothing
  cases written : ufsWrite .host u 1 (fun _ => 7) 0 2 with
  | error f =>
    rw [written] at check
    cases check
  | ok result =>
    obtain ⟨r, w⟩ := result
    rw [written] at check
    simp only [Bool.and_eq_true, decide_eq_true_eq] at check
    obtain ⟨⟨⟨rfl, before⟩, after⟩, regular⟩ := check
    have writable : u.Writable 1 0 2 := by
      by_contra unwritable
      rw [ufsWrite_unwritable unwritable] at written
      cases written
    have took : withGhost (call .host) (learn .host) (u, q) (.write 1 (fun _ => 7) 0 2) =
        .ok (w, learn .host u (.write 1 (fun _ => 7) 0 2) w q) := by
      simp only [withGhost, call, written]
      rfl
    have harmless : Harmless .host u (.write 1 (fun _ => 7) 0 2) := trivial
    have run := made.append (.cons harmless took (.nil _))
    have known : learn .host u (.write 1 (fun _ => 7) 0 2) w q (1, 0) = {7} := by
      have stays : ((1, 0) : Nat × Nat) ∉ {s : Nat × Nat | ¬ (u.allocated s.1 ∧ w.allocated s.1)} :=
        not_not_intro ⟨before, after⟩
      have inside : ((1, 0) : Nat × Nat) ∈ span (1 : Int).toNat (0 : Int).toNat (2 : Int).toNat := by
        exact ⟨rfl, by decide, by decide, by decide⟩
      simp only [learn, Known.forget, if_neg stays, if_pos writable, written]
      have zero : (Except.ok (0, w) : Except Fault (Int × Ufs)).map Prod.fst = Except.ok 0 := rfl
      rw [if_pos zero, Known.store, if_pos inside]
    refine ⟨w, _, run, known, fun out read => ?_⟩
    have reads := (@reads_what_was_written _ _ _ _ _ _ _ _ _ _ _ (by decide) smallest_formatted
      (smallest_mounted .host) run 1 0 2 (fun _ => 0) regular).1 out read (1, 0) ⟨rfl, by decide, by decide, by decide⟩
    rw [known] at reads
    exact reads

end Icix
