import Icix.Library.Bytes
import Icix.Library.Ownership
import Icix.Library.Runs
import Icix.Library.WordBits

/-! The page frame allocator of kernel/arch/i386/vmm.c. A bitmap of 32-bit words
has a bit for every frame of physical memory; a page entry that is present holds
the number of a frame. The helpers that set and clear a bit take an address. -/
namespace Icix
open Bytes Ownership Runs

/-- MEM_SIZE, 16 MB of physical memory, and PAGE_SIZE. -/
def memSize : Nat := 0x1000000
def pageSize : Nat := 0x1000

/- page_t, a word of bit fields. -/
structure Page where
  present : BitVec 1
  rw : BitVec 1
  user : BitVec 1
  accessed : BitVec 1
  dirty : BitVec 1
  unused : BitVec 7
  frame : BitVec 20
  deriving DecidableEq

/-- The ways the memory manager stops the machine. -/
inductive Trap where
  | abort
  deriving DecidableEq, Repr

abbrev Frames := Nat → Word

def indexFromBit (a : Nat) : Nat := a / (8 * 4)
def offsetFromBit (a : Nat) : Nat := a % (8 * 4)

def setFrame (frames : Frames) (frameAddr : Word) : Frames :=
  let frame := frameAddr.toNat / 0x1000
  WordBits.setBit frames (indexFromBit frame) (offsetFromBit frame)

def clearFrame (frames : Frames) (frameAddr : Word) : Frames :=
  let frame := frameAddr.toNat / 0x1000
  WordBits.clearBit frames (indexFromBit frame) (offsetFromBit frame)

/- The bit of a frame, by its number. -/
def frameBit (frames : Frames) (f : Nat) : Bool :=
  WordBits.testBit frames (indexFromBit f) (offsetFromBit f)

/- One pass of first_frame's outer loop: the lowest clear bit of a word that is not full. -/
def scanWord (frames : Frames) (i : Nat) : Option Nat :=
  if frames i ≠ 0xFFFFFFFF#32 then
    (List.range 32).findSome? fun j =>
      if frames i &&& 1#32 <<< j = 0#32 then some (i * 4 * 8 + j) else none
  else none

def scanFrames (frames : Frames) (nframes : Nat) : Option Nat :=
  (List.range (indexFromBit nframes)).findSome? (scanWord frames)

def firstFrame (frames : Frames) (nframes : Nat) : Word :=
  match scanFrames frames nframes with
  | some idx => BitVec.ofNat 32 idx
  | none => -1

/- The allocator works on any set of page entries; ι names them. -/
structure Vmm (ι : Type) where
  frames : Frames
  nframes : Nat
  pages : ι → Page

section Allocator

variable {ι : Type} [DecidableEq ι]

def pfaAlloc (v : Vmm ι) (page : ι) (isKernel isWriteable : Word) : Except Trap (Vmm ι) :=
  if (v.pages page).present = 1 then .ok v
  else
    let idx := firstFrame v.frames v.nframes
    if idx = -1 then .error .abort
    else .ok { v with
      frames := setFrame v.frames (idx * 0x1000)
      pages := Function.update v.pages page { v.pages page with
        present := 1
        rw := isWriteable.setWidth 1
        user := if isKernel ≠ 0 then 0 else 1
        frame := idx.setWidth 20 } }

/-- The frame's number, not its address, goes to clear_frame. -/
def pfaFree (v : Vmm ι) (page : ι) : Vmm ι :=
  let frame := (v.pages page).frame.setWidth 32
  if (v.pages page).present ≠ 0 then
    { v with
      frames := clearFrame v.frames frame
      pages := Function.update v.pages page { v.pages page with present := 0 } }
  else v

inductive PfaCall (ι : Type) where
  | alloc (page : ι) (isKernel isWriteable : Word)
  | free (page : ι)

def pfa (v : Vmm ι) : PfaCall ι → Except Trap (Vmm ι)
  | .alloc page isKernel isWriteable => pfaAlloc v page isKernel isWriteable
  | .free page => .ok (pfaFree v page)

/- The frame that a page entry holds. -/
def Vmm.held (v : Vmm ι) (page : ι) : Option Nat :=
  if (v.pages page).present = 1 then some (v.pages page).frame.toNat else none

def Vmm.usedFrame (v : Vmm ι) (f : Nat) : Prop := f < v.nframes ∧ frameBit v.frames f = true

end Allocator

theorem offsetFromBit_lt (a : Nat) : offsetFromBit a < 32 := Nat.mod_lt _ (by decide)

theorem same_frame {f g : Nat} :
    (indexFromBit g = indexFromBit f ∧ offsetFromBit g = offsetFromBit f) ↔ g = f := by
  unfold indexFromBit offsetFromBit
  omega

theorem frameBit_setFrame (frames : Frames) (addr : Word) (f : Nat) :
    frameBit (setFrame frames addr) f = (decide (f = addr.toNat / 0x1000) || frameBit frames f) := by
  rw [frameBit, setFrame, WordBits.testBit_setBit _ _ _ (offsetFromBit_lt _) (offsetFromBit_lt _), frameBit]
  simp only [same_frame]

theorem frameBit_clearFrame (frames : Frames) (addr : Word) (f : Nat) :
    frameBit (clearFrame frames addr) f = (!decide (f = addr.toNat / 0x1000) && frameBit frames f) := by
  rw [frameBit, clearFrame, WordBits.testBit_clearBit _ _ _ (offsetFromBit_lt _) (offsetFromBit_lt _), frameBit]
  simp only [same_frame]

theorem frameBit_eq (frames : Frames) {i j : Nat} (hj : j < 32) :
    frameBit frames (i * 4 * 8 + j) = WordBits.testBit frames i j := by
  have index : indexFromBit (i * 4 * 8 + j) = i := by unfold indexFromBit; omega
  have offset : offsetFromBit (i * 4 * 8 + j) = j := by unfold offsetFromBit; omega
  rw [frameBit, index, offset]

theorem scanWord_some {frames : Frames} {i f : Nat} (found : scanWord frames i = some f) :
    indexFromBit f = i ∧ frameBit frames f = false ∧
      ∀ g < f, indexFromBit g = i → frameBit frames g = true := by
  unfold scanWord at found
  split at found
  · obtain ⟨j, hj, this, before⟩ := findSome_range_eq_some.mp found
    split at this
    · rename_i clear
      cases Option.some.inj this
      refine ⟨by unfold indexFromBit; omega, ?_, fun g lt index => ?_⟩
      · rw [frameBit_eq frames hj, WordBits.testBit, clear, bne_self_eq_false]
      · obtain ⟨k, hk, rfl⟩ : ∃ k, k < j ∧ g = i * 4 * 8 + k :=
          ⟨g - i * 4 * 8, by unfold indexFromBit at index; omega, by unfold indexFromBit at index; omega⟩
        have set := before k hk
        rw [frameBit_eq frames (by omega), WordBits.testBit, bne_iff_ne]
        intro clear
        rw [if_pos clear] at set
        cases set
    · cases this
  · cases found

theorem scanWord_none {frames : Frames} {i : Nat} (none : scanWord frames i = none) (f : Nat)
    (index : indexFromBit f = i) : frameBit frames f = true := by
  rw [frameBit, index]
  unfold scanWord at none
  split at none
  · have set := List.findSome?_eq_none_iff.mp none (offsetFromBit f) (List.mem_range.mpr (offsetFromBit_lt f))
    rw [WordBits.testBit, bne_iff_ne]
    intro clear
    rw [if_pos clear] at set
    cases set
  · rename_i full
    exact (WordBits.word_full_iff frames i).mp (not_not.mp full) _ (offsetFromBit_lt f)

theorem scanFrames_some {frames : Frames} {nframes f : Nat} (found : scanFrames frames nframes = some f) :
    f < nframes ∧ frameBit frames f = false ∧ ∀ g < f, frameBit frames g = true := by
  obtain ⟨i, hi, this, before⟩ := findSome_range_eq_some.mp found
  obtain ⟨index, clear, below⟩ := scanWord_some this
  refine ⟨by unfold indexFromBit at hi index; omega, clear, fun g lt => ?_⟩
  by_cases same : indexFromBit g = i
  · exact below g lt same
  · exact scanWord_none (before (indexFromBit g) (by unfold indexFromBit at *; omega)) g rfl

theorem scanFrames_none {frames : Frames} {nframes : Nat} (none : scanFrames frames nframes = none)
    (f : Nat) (inside : indexFromBit f < indexFromBit nframes) : frameBit frames f = true :=
  scanWord_none (List.findSome?_eq_none_iff.mp none _ (List.mem_range.mpr inside)) f rfl

/-- When the first k frames are taken, the next one is found. -/
theorem scanFrames_prefix {frames : Frames} {n k : Nat} (bits : ∀ f < n, frameBit frames f = decide (f < k))
    (hk : indexFromBit k < indexFromBit n) : scanFrames frames n = some k := by
  have inside : k < n := by unfold indexFromBit at hk; omega
  have clear := bits k inside
  rw [decide_eq_false (Nat.lt_irrefl k)] at clear
  cases scan : scanFrames frames n with
  | none => exact Bool.noConfusion (clear.symm.trans (scanFrames_none scan k hk))
  | some f =>
    obtain ⟨inside, free, lowest⟩ := scanFrames_some scan
    rcases Nat.lt_trichotomy f k with lt | same | gt
    · rw [bits f inside, decide_eq_true lt] at free
      cases free
    · rw [same]
    · exact Bool.noConfusion (clear.symm.trans (lowest k gt))

theorem scanFrames_taken {frames : Frames} {n k : Nat} (bits : ∀ f < n, frameBit frames f = decide (f < k))
    (hk : n ≤ k) : scanFrames frames n = none := by
  cases scan : scanFrames frames n with
  | none => rfl
  | some f =>
    obtain ⟨inside, free, _⟩ := scanFrames_some scan
    rw [bits f inside, decide_eq_true (Nat.lt_of_lt_of_le inside hk)] at free
    cases free

/- The number of a frame, as first_frame returns it. -/
theorem frame_toNat {f : Nat} (small : f < 1048576) : (BitVec.ofNat 32 f).toNat = f := by
  rw [BitVec.toNat_ofNat]
  omega

theorem frame_valid {f : Nat} (small : f < 1048576) : BitVec.ofNat 32 f ≠ (-1 : Word) := by
  intro same
  have number := congrArg BitVec.toNat same
  have largest : (-1 : Word).toNat = 4294967295 := by decide
  rw [frame_toNat small, largest] at number
  omega

/-- The address that pfa_alloc makes of it leads set_frame back to it. -/
theorem frame_address {f : Nat} (small : f < 1048576) : (BitVec.ofNat 32 f * 0x1000).toNat / 0x1000 = f := by
  have value : (0x1000 : Word).toNat = 4096 := by decide
  rw [BitVec.toNat_mul, frame_toNat small, value]
  omega

/-- A frame number that fits a page entry is not taken for the failure value. -/
theorem firstFrame_some {frames : Frames} {nframes f : Nat} (small : nframes ≤ 1048576)
    (found : scanFrames frames nframes = some f) :
    firstFrame frames nframes = BitVec.ofNat 32 f ∧ BitVec.ofNat 32 f ≠ (-1 : Word) ∧
      (BitVec.ofNat 32 f).toNat = f := by
  have inside := Nat.lt_of_lt_of_le (scanFrames_some found).1 small
  exact ⟨by rw [firstFrame, found], frame_valid inside, frame_toNat inside⟩

theorem firstFrame_none {frames : Frames} {nframes : Nat} (none : scanFrames frames nframes = none) :
    firstFrame frames nframes = -1 := by rw [firstFrame, none]

section Allocator

variable {ι : Type}

/-- The entry page got the lowest clear frame f, and nothing else changed. -/
structure Allocated (v : Vmm ι) (page : ι) (f : Nat) (w : Vmm ι) : Prop where
  nframes : w.nframes = v.nframes
  inside : f < v.nframes
  clear : frameBit v.frames f = false
  lowest : ∀ g < f, frameBit v.frames g = true
  bits : ∀ g, frameBit w.frames g = (decide (g = f) || frameBit v.frames g)
  present : (w.pages page).present = 1
  frame : (w.pages page).frame.toNat = f
  others : ∀ q, q ≠ page → w.pages q = v.pages q

theorem held_eq_some {v : Vmm ι} {page : ι} {f : Nat} :
    v.held page = some f ↔ (v.pages page).present = 1 ∧ (v.pages page).frame.toNat = f := by
  unfold Vmm.held
  split
  · rename_i here
    exact ⟨fun same => ⟨here, Option.some.inj same⟩, fun same => congrArg some same.2⟩
  · rename_i absent
    exact ⟨fun same => (by cases same), fun same => absurd same.1 absent⟩

theorem Allocated.used {v w : Vmm ι} {page : ι} {f : Nat} (allocated : Allocated v page f w) (g : Nat) :
    w.usedFrame g ↔ g = f ∨ v.usedFrame g := by
  unfold Vmm.usedFrame
  rw [allocated.nframes, allocated.bits, Bool.or_eq_true, decide_eq_true_eq]
  constructor
  · rintro ⟨inside, same | set⟩
    · exact Or.inl same
    · exact Or.inr ⟨inside, set⟩
  · rintro (same | ⟨inside, set⟩)
    · exact ⟨same ▸ allocated.inside, Or.inl same⟩
    · exact ⟨inside, Or.inr set⟩

/-- No two present entries hold one frame, and the set bits are the held frames. -/
structure Vmm.Owned (v : Vmm ι) : Prop where
  exclusive : Exclusive v.held
  exact : Exact v.held v.usedFrame

variable [DecidableEq ι]

theorem pfaAlloc_found {v : Vmm ι} {page : ι} (isKernel isWriteable : Word) {f : Nat}
    (small : v.nframes ≤ 1048576) (absent : (v.pages page).present ≠ 1)
    (found : scanFrames v.frames v.nframes = some f) :
    ∃ w, pfaAlloc v page isKernel isWriteable = .ok w ∧ Allocated v page f w := by
  obtain ⟨first, valid, number⟩ := firstFrame_some small found
  obtain ⟨inside, clear, lowest⟩ := scanFrames_some found
  refine ⟨_, by rw [pfaAlloc, if_neg absent]; exact if_neg (first ▸ valid), ?_⟩
  have address : (firstFrame v.frames v.nframes * 0x1000).toNat / 0x1000 = f := by
    rw [first]
    exact frame_address (Nat.lt_of_lt_of_le inside small)
  refine ⟨rfl, inside, clear, lowest, fun g => ?_, ?_, ?_, fun q other => Function.update_of_ne other ..⟩
  · exact (frameBit_setFrame ..).trans (by rw [address])
  · dsimp only
    rw [Function.update_self]
  · dsimp only
    rw [Function.update_self]
    dsimp only
    rw [first, BitVec.toNat_setWidth, number]
    omega

theorem pfaAlloc_full {v : Vmm ι} {page : ι} (isKernel isWriteable : Word) (absent : (v.pages page).present ≠ 1)
    (none : scanFrames v.frames v.nframes = none) : pfaAlloc v page isKernel isWriteable = .error .abort := by
  rw [pfaAlloc, if_neg absent]
  exact if_pos (firstFrame_none none)

/-- An entry that is present is left alone; otherwise it gets the lowest clear
frame, and where there is none the call aborts. -/
theorem pfaAlloc_ok {v w : Vmm ι} {page : ι} {isKernel isWriteable : Word} (small : v.nframes ≤ 1048576)
    (returned : pfaAlloc v page isKernel isWriteable = .ok w) :
    (v.pages page).present = 1 ∧ w = v ∨ (v.pages page).present ≠ 1 ∧ ∃ f, Allocated v page f w := by
  by_cases here : (v.pages page).present = 1
  · rw [pfaAlloc, if_pos here] at returned
    exact Or.inl ⟨here, (Except.ok.inj returned).symm⟩
  · right
    cases scan : scanFrames v.frames v.nframes with
    | none =>
      rw [pfaAlloc_full _ _ here scan] at returned
      cases returned
    | some f =>
      obtain ⟨w', done, allocated⟩ := pfaAlloc_found isKernel isWriteable small here scan
      rw [returned] at done
      exact ⟨here, f, Except.ok.inj done ▸ allocated⟩

theorem Allocated.held {v w : Vmm ι} {page : ι} {f : Nat} (allocated : Allocated v page f w) :
    w.held = assign v.held page f := by
  funext q
  by_cases same : q = page
  · subst q
    rw [assign, Function.update_self]
    exact held_eq_some.mpr ⟨allocated.present, allocated.frame⟩
  · rw [assign, Function.update_of_ne same, Vmm.held, Vmm.held, allocated.others q same]

theorem Allocated.owned {v w : Vmm ι} {page : ι} {f : Nat} (allocated : Allocated v page f w)
    (absent : (v.pages page).present ≠ 1) (owned : v.Owned) : w.Owned := by
  have empty : v.held page = none := if_neg absent
  have fresh : ¬ v.usedFrame f := fun used => Bool.noConfusion (allocated.clear.symm.trans used.2)
  refine ⟨?_, ?_⟩
  · rw [allocated.held]
    exact owned.exclusive.assign owned.exact.covered page fresh
  · rw [allocated.held]
    exact owned.exact.assign empty allocated.used

theorem pfaFree_absent {v : Vmm ι} {page : ι} (absent : (v.pages page).present ≠ 1) : pfaFree v page = v := by
  have zero := WordBits.bit_zero absent
  rw [pfaFree, if_neg (not_not.mpr zero)]

/-- Freeing a present entry clears the bit that its frame number addresses. -/
structure Freed (v : Vmm ι) (page : ι) (w : Vmm ι) : Prop where
  nframes : w.nframes = v.nframes
  bits : ∀ g, frameBit w.frames g = (!decide (g = (v.pages page).frame.toNat / 0x1000) && frameBit v.frames g)
  held : w.held = drop v.held page

theorem pfaFree_present {v : Vmm ι} {page : ι} (here : (v.pages page).present = 1) :
    Freed v page (pfaFree v page) := by
  have nonzero : (v.pages page).present ≠ 0 := by rw [here]; decide
  rw [pfaFree, if_pos nonzero]
  refine ⟨rfl, fun g => (frameBit_clearFrame ..).trans ?_, ?_⟩
  · have fits := (v.pages page).frame.isLt
    have number : ((v.pages page).frame.setWidth 32).toNat = (v.pages page).frame.toNat := by
      rw [BitVec.toNat_setWidth]
      omega
    rw [number]
  · funext q
    by_cases same : q = page
    · subst q
      rw [drop, Function.update_self]
      refine if_neg ?_
      dsimp only
      rw [Function.update_self]
      change ¬ (0 : BitVec 1) = 1
      decide
    · have kept : ∀ entry, Function.update v.pages page entry q = v.pages q :=
        fun _ => Function.update_of_ne same ..
      rw [drop, Function.update_of_ne same]
      simp only [Vmm.held, kept]

/- The frees of present entries are of entries that hold frame 0. -/
def FreesFrameZero (v : Vmm ι) : PfaCall ι → Prop
  | .free page => (v.pages page).present = 1 → (v.pages page).frame = 0
  | .alloc .. => True

/-- Releasing a frame by its number clears its own bit only where it is frame 0. -/
theorem pfaFree_owned_iff {v : Vmm ι} (owned : v.Owned) (page : ι) :
    (pfaFree v page).Owned ↔ FreesFrameZero v (.free page) := by
  by_cases here : (v.pages page).present = 1
  · have freed := pfaFree_present here
    have held : v.held page = some (v.pages page).frame.toNat := if_pos here
    constructor
    · intro owned' _
      by_contra other
      have nonzero : (v.pages page).frame.toNat ≠ 0 := fun zero => other (BitVec.eq_of_toNat_eq zero)
      obtain ⟨inside, set⟩ := (owned.exact _).mpr ⟨page, held⟩
      have lost : (pfaFree v page).usedFrame (v.pages page).frame.toNat := by
        refine ⟨freed.nframes ▸ inside, ?_⟩
        rw [freed.bits, set, decide_eq_false (by omega)]
        rfl
      obtain ⟨q, still⟩ := (owned'.exact _).mp lost
      rw [freed.held] at still
      exact owned.exclusive.dropped held q still
    · intro zero
      have number : (v.pages page).frame.toNat = 0 := congrArg BitVec.toNat (zero here)
      refine ⟨?_, ?_⟩
      · rw [freed.held]
        exact owned.exclusive.sub (drop_sub _ _)
      · rw [freed.held]
        refine owned.exact.drop owned.exclusive held (fun g => ?_)
        unfold Vmm.usedFrame
        rw [freed.nframes, freed.bits, number, Bool.and_eq_true, Bool.not_eq_true', decide_eq_false_iff_not]
        exact ⟨fun ⟨inside, other, set⟩ => ⟨other, inside, set⟩, fun ⟨other, inside, set⟩ => ⟨inside, other, set⟩⟩
  · rw [pfaFree_absent here]
    exact ⟨fun _ present => absurd present here, fun _ => owned⟩

theorem pfa_nframes {v w : Vmm ι} {c : PfaCall ι} (small : v.nframes ≤ 1048576) (returned : pfa v c = .ok w) :
    w.nframes = v.nframes := by
  cases c with
  | alloc page isKernel isWriteable =>
    rcases pfaAlloc_ok small returned with ⟨_, rfl⟩ | ⟨_, f, allocated⟩
    · rfl
    · exact allocated.nframes
  | free page =>
    cases Except.ok.inj returned
    unfold pfaFree
    split <;> rfl

theorem pfa_owned_iff {v w : Vmm ι} {c : PfaCall ι} (small : v.nframes ≤ 1048576) (owned : v.Owned)
    (returned : pfa v c = .ok w) : w.Owned ↔ FreesFrameZero v c := by
  cases c with
  | alloc page isKernel isWriteable =>
    refine ⟨fun _ => trivial, fun _ => ?_⟩
    rcases pfaAlloc_ok small returned with ⟨_, rfl⟩ | ⟨absent, f, allocated⟩
    · exact owned
    · exact allocated.owned absent owned
  | free page =>
    cases Except.ok.inj returned
    exact pfaFree_owned_iff owned page

/- No entry is present and no bit is set. -/
def Vmm.Clear (v : Vmm ι) : Prop :=
  (∀ page, (v.pages page).present = 0) ∧ ∀ f < v.nframes, frameBit v.frames f = false

omit [DecidableEq ι] in
theorem Vmm.Clear.owned {v : Vmm ι} (clear : v.Clear) : v.Owned := by
  have nothing : ∀ page f, v.held page ≠ some f := by
    intro page f held
    have here := (held_eq_some.mp held).1
    rw [clear.1 page] at here
    exact absurd here (by decide)
  refine ⟨fun page _ f held => absurd held (nothing page f), fun f => ⟨fun ⟨inside, set⟩ => ?_, fun ⟨page, held⟩ => ?_⟩⟩
  · exact Bool.noConfusion ((clear.2 f inside).symm.trans set)
  · exact absurd held (nothing page f)

/-- Over every run from a clear allocator whose frees are of frame 0, the present
entries own distinct frames, which are exactly the set bits. One more call keeps
this if and only if it is not a free of another frame. -/
theorem frames_owned {v₀ v : Vmm ι} {calls : List (PfaCall ι)} (small : v₀.nframes ≤ 1048576) (clear : v₀.Clear)
    (run : Run pfa FreesFrameZero v₀ calls v) :
    (Exclusive v.held ∧ Exact v.held v.usedFrame) ∧
      ∀ c w, pfa v c = .ok w → ((Exclusive w.held ∧ Exact w.held w.usedFrame) ↔ FreesFrameZero v c) := by
  have kept := run.invariant (fun v => v.nframes ≤ 1048576 ∧ v.Owned) ?_ ⟨small, clear.owned⟩
  · refine ⟨⟨kept.2.exclusive, kept.2.exact⟩, fun c w returned => ?_⟩
    have step := pfa_owned_iff kept.1 kept.2 returned
    exact ⟨fun holds => step.mp ⟨holds.1, holds.2⟩, fun met => ⟨(step.mpr met).exclusive, (step.mpr met).exact⟩⟩
  · rintro v c w ⟨small, owned⟩ met returned
    exact ⟨(pfa_nframes small returned).symm ▸ small, (pfa_owned_iff small owned returned).mpr met⟩

end Allocator

/- init_paging's allocator over three entries, before any call. -/
def bootVmm : Vmm (Fin 3) := ⟨fun _ => 0, memSize / pageSize, fun _ => ⟨0, 0, 0, 0, 0, 0, 0⟩⟩

theorem bootVmm_clear : bootVmm.Clear :=
  ⟨fun _ => rfl, fun f _ => (WordBits.testBit_eq_getLsbD _ _ (offsetFromBit_lt f)).trans BitVec.getLsbD_zero⟩

theorem frames_owned_boot : ∃ v, Run pfa FreesFrameZero bootVmm [.alloc 0 0 1, .alloc 1 1 0, .free 0, .alloc 2 0 0] v ∧
    Exclusive v.held ∧ Exact v.held v.usedFrame := by
  obtain ⟨v, run, _⟩ := run_of_check pfa FreesFrameZero
    (fun v c => match c with | .free page => decide ((v.pages page).frame = 0) | .alloc .. => true) bootVmm
    [.alloc 0 0 1, .alloc 1 1 0, .free 0, .alloc 2 0 0] (fun _ => true)
    (fun v c test => by
      cases c with
      | alloc => trivial
      | free => exact fun _ => of_decide_eq_true test)
    (by decide +kernel)
  exact ⟨v, run, (frames_owned (by decide) bootVmm_clear run).1⟩

/-- Freeing the entry of frame 1 clears the bit of frame 0, which the first entry
holds: the next allocation hands it out again, and frame 1 stays lost. -/
theorem free_clears_another_frame : ∃ v, Run pfa (fun _ _ => True) bootVmm
    [.alloc 0 0 0, .alloc 1 0 0, .free 1, .alloc 2 0 0] v ∧ bootVmm.Clear ∧
    ¬ Exclusive v.held ∧ ¬ Exact v.held v.usedFrame := by
  obtain ⟨v, run, check⟩ := run_of_check pfa (fun _ _ => True) (fun _ _ => true) bootVmm
    [.alloc 0 0 0, .alloc 1 0 0, .free 1, .alloc 2 0 0]
    (fun v => decide (v.held 0 = some 0) && decide (v.held 1 = none) && decide (v.held 2 = some 0) &&
      decide (1 < v.nframes) && frameBit v.frames 1) (fun _ _ _ => trivial) (by decide +kernel)
  simp only [Bool.and_eq_true, decide_eq_true_eq] at check
  obtain ⟨⟨⟨⟨first, second⟩, third⟩, inside⟩, set⟩ := check
  refine ⟨v, run, bootVmm_clear, fun exclusive => ?_, fun exact => ?_⟩
  · exact absurd (exclusive 0 2 0 first third) (by decide)
  · obtain ⟨page, held⟩ := (exact 1).mp ⟨inside, set⟩
    match page with
    | 0 => exact absurd (first.symm.trans held) (by decide)
    | 1 => exact absurd (second.symm.trans held) (by decide)
    | 2 => exact absurd (third.symm.trans held) (by decide)

end Icix
