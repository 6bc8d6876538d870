import Icix.Mm.Frames
import Mathlib.Data.List.Nodup
import Mathlib.Order.Bounds.Defs

/-! The frame allocator as a queue of frame numbers: first_frame reads its front, and each
allocation takes the front off. -/
namespace Icix
open Bytes Runs

/- The clear frames, from the lowest on. -/
def clearFrames (frames : Frames) (nframes : Nat) : List Nat :=
  (List.range nframes).filter fun f => !frameBit frames f

/-- What first_frame will return when nothing is freed: the clear frames, then (uint32_t)-1. -/
def frameQueue (frames : Frames) (nframes : Nat) : List Word :=
  (clearFrames frames nframes).map (BitVec.ofNat 32) ++ [-1]

/-- The value found is the least clear frame, its address sets that bit alone, and -1 stands for
a full bitmap. -/
structure FindsLowest (frames : Frames) (nframes : Nat) : Prop where
  full : firstFrame frames nframes = -1 ↔ ∀ f < nframes, frameBit frames f = true
  least : firstFrame frames nframes ≠ -1 →
    IsLeast {f | f < nframes ∧ frameBit frames f = false} (firstFrame frames nframes).toNat
  sets : firstFrame frames nframes ≠ -1 → ∀ f,
    frameBit (setFrame frames (firstFrame frames nframes * 0x1000)) f =
      (decide (f = (firstFrame frames nframes).toNat) || frameBit frames f)

/-- The values come in order and once, the frames among them were clear, and all clear ones are
there when -1 is. -/
structure Enumerates (frames : Frames) (nframes : Nat) (returned : List Word) : Prop where
  increasing : returned.Pairwise (· < ·)
  distinct : returned.Nodup
  clear : ∀ x ∈ returned, x ≠ -1 → x.toNat < nframes ∧ frameBit frames x.toNat = false
  complete : -1 ∈ returned → ∀ f < nframes, frameBit frames f = false → BitVec.ofNat 32 f ∈ returned

section Calls

variable {ι : Type}

def PfaCall.Allocates : PfaCall ι → Prop
  | .alloc .. => True
  | .free _ => False

/- What first_frame returns in a call, if the call gets to it. -/
def searched (v : Vmm ι) : PfaCall ι → Option Word
  | .alloc page _ _ => if (v.pages page).present = 1 then none else some (firstFrame v.frames v.nframes)
  | .free _ => none

variable [DecidableEq ι]

/- What first_frame returns in a run of calls, up to the one that aborts. -/
def framesReturned (v : Vmm ι) : List (PfaCall ι) → List Word
  | [] => []
  | c :: calls =>
    (searched v c).toList ++
      match pfa v c with
      | .ok w => framesReturned w calls
      | .error _ => []

end Calls

@[simp] theorem mem_clearFrames {frames : Frames} {nframes f : Nat} :
    f ∈ clearFrames frames nframes ↔ f < nframes ∧ frameBit frames f = false := by
  simp [clearFrames]

theorem clearFrames_first {frames after : Frames} {nframes f : Nat} (inside : f < nframes)
    (clear : frameBit frames f = false) (lowest : ∀ g < f, frameBit frames g = true)
    (bits : ∀ g, frameBit after g = (decide (g = f) || frameBit frames g)) :
    clearFrames frames nframes = f :: clearFrames after nframes := by
  apply filter_range_least inside
  · simp [clear]
  · intro g lt
    simp [lowest g lt]
  · intro g
    rw [bits, Bool.not_or, bne, beq_eq_decide]

/-- The words that first_frame goes through have all frames. -/
theorem scanFrames_full {frames : Frames} {nframes : Nat} (words : 32 ∣ nframes)
    (none : scanFrames frames nframes = none) : ∀ f < nframes, frameBit frames f = true := by
  intro f inside
  apply scanFrames_none none
  unfold indexFromBit
  omega

theorem clearFrames_full {frames : Frames} {nframes : Nat} (full : ∀ f < nframes, frameBit frames f = true) :
    clearFrames frames nframes = [] := by
  apply List.filter_eq_nil_iff.mpr
  intro f mem
  simp [full f (List.mem_range.mp mem)]

section Queue

variable {frames : Frames} {nframes : Nat} (small : nframes ≤ 1048576)
include small

/-- The queue is in order, also to -1, which is above all frames. -/
theorem frameQueue_increasing : (frameQueue frames nframes).Pairwise (· < ·) := by
  have largest : (-1 : Word).toNat = 4294967295 := by decide
  have ascending : (clearFrames frames nframes).Pairwise (· < ·) := List.pairwise_lt_range.filter _
  apply List.pairwise_append.mpr
  refine ⟨List.pairwise_map.mpr (ascending.imp_of_mem ?_), List.pairwise_singleton _ _, ?_⟩
  · intro f g hf hg lt
    have left := (mem_clearFrames.mp hf).1
    have right := (mem_clearFrames.mp hg).1
    rw [BitVec.lt_def, frame_toNat (by omega), frame_toNat (by omega)]
    exact lt
  · intro x hx y hy
    obtain ⟨f, hf, rfl⟩ := List.mem_map.mp hx
    have inside := (mem_clearFrames.mp hf).1
    rw [List.mem_singleton.mp hy, BitVec.lt_def, largest, frame_toNat (by omega)]
    omega

/-- Whatever is read off the front of the queue enumerates the clear frames. -/
theorem enumerates {returned : List Word} (front : returned <+: frameQueue frames nframes) :
    Enumerates frames nframes returned := by
  have increasing := (frameQueue_increasing small).sublist front.sublist
  refine ⟨increasing, increasing.nodup, fun x mem valid => ?_, fun last f inside clear => ?_⟩
  · rcases List.mem_append.mp (front.subset mem) with frame | last
    · obtain ⟨f, hf, rfl⟩ := List.mem_map.mp frame
      have found := mem_clearFrames.mp hf
      rwa [frame_toNat (Nat.lt_of_lt_of_le found.1 small)]
    · exact absurd (List.mem_singleton.mp last) valid
  · have frame : BitVec.ofNat 32 f ∈ (clearFrames frames nframes).map (BitVec.ofNat 32) :=
      List.mem_map_of_mem (mem_clearFrames.mpr ⟨inside, clear⟩)
    rcases List.prefix_concat_iff.mp front with all | part
    · rw [all]
      exact List.mem_append_left _ frame
    · obtain ⟨g, hg, same⟩ := List.mem_map.mp (part.subset last)
      exact absurd same (frame_valid (Nat.lt_of_lt_of_le (mem_clearFrames.mp hg).1 small))

/-- first_frame and set_frame, on every content of the bitmap. -/
theorem findsLowest (words : 32 ∣ nframes) : FindsLowest frames nframes := by
  cases scan : scanFrames frames nframes with
  | none =>
    have full := scanFrames_full words scan
    have value := firstFrame_none scan
    exact ⟨iff_of_true value full, fun found => absurd value found, fun found => absurd value found⟩
  | some f =>
    obtain ⟨value, valid, number⟩ := firstFrame_some small scan
    obtain ⟨inside, clear, lowest⟩ := scanFrames_some scan
    have address := frame_address (Nat.lt_of_lt_of_le inside small)
    constructor
    · rw [value]
      exact iff_of_false valid fun full => Bool.noConfusion (clear.symm.trans (full f inside))
    · rw [value, number]
      refine fun _ => ⟨⟨inside, clear⟩, fun g hg => ?_⟩
      by_contra below
      exact Bool.noConfusion (hg.2.symm.trans (lowest g (Nat.lt_of_not_le below)))
    · intro _ g
      rw [frameBit_setFrame, value, address, number]

end Queue

section Runs

variable {ι : Type} [DecidableEq ι]

omit [DecidableEq ι] in
theorem Allocated.queue {v w : Vmm ι} {page : ι} {f : Nat} (allocated : Allocated v page f w) :
    frameQueue v.frames v.nframes = BitVec.ofNat 32 f :: frameQueue w.frames w.nframes := by
  have first := clearFrames_first allocated.inside allocated.clear allocated.lowest allocated.bits
  rw [frameQueue, first, frameQueue, allocated.nframes, List.map_cons, List.cons_append]

/-- A run of allocations reads the queue from the front, a frame for each absent entry. -/
theorem framesReturned_front {v : Vmm ι} (words : 32 ∣ v.nframes) (small : v.nframes ≤ 1048576)
    {calls : List (PfaCall ι)} (allocates : ∀ c ∈ calls, c.Allocates) :
    framesReturned v calls <+: frameQueue v.frames v.nframes := by
  induction calls generalizing v with
  | nil => exact List.nil_prefix
  | cons c calls ih =>
    have rest : ∀ d ∈ calls, d.Allocates := fun d mem => allocates d (List.mem_cons_of_mem c mem)
    cases c with
    | free page => exact (allocates _ List.mem_cons_self).elim
    | alloc page isKernel isWriteable =>
      by_cases here : (v.pages page).present = 1
      · have same : pfaAlloc v page isKernel isWriteable = .ok v := if_pos here
        simpa [framesReturned, searched, pfa, here, same] using ih words small rest
      · have asks : searched v (.alloc page isKernel isWriteable) = some (firstFrame v.frames v.nframes) := if_neg here
        cases scan : scanFrames v.frames v.nframes with
        | none =>
          have full := clearFrames_full (scanFrames_full words scan)
          have aborts := pfaAlloc_full isKernel isWriteable here scan
          simp [framesReturned, asks, pfa, aborts, firstFrame_none scan, frameQueue, full]
        | some f =>
          obtain ⟨w, done, allocated⟩ := pfaAlloc_found isKernel isWriteable small here scan
          have tail := ih (allocated.nframes ▸ words) (allocated.nframes ▸ small) rest
          have value := (firstFrame_some small scan).1
          simpa [framesReturned, asks, pfa, done, value, allocated.queue] using tail

/-- From any bitmap, first_frame finds the lowest clear frame, and allocations without frees go
through the clear frames in order until it returns -1. -/
theorem frames_enumerated {v : Vmm ι} (words : 32 ∣ v.nframes) (small : v.nframes ≤ 1048576)
    {calls : List (PfaCall ι)} (allocates : ∀ c ∈ calls, c.Allocates) :
    FindsLowest v.frames v.nframes ∧ Enumerates v.frames v.nframes (framesReturned v calls) :=
  ⟨findsLowest small words, enumerates small (framesReturned_front words small allocates)⟩

end Runs

/- A word with frames 3 and 7 clear, and three absent entries. -/
def nearlyFull : Vmm (Fin 3) := ⟨fun _ => 0xFFFFFF77, 32, fun _ => ⟨0, 0, 0, 0, 0, 0, 0⟩⟩

theorem frames_enumerated_two :
    framesReturned nearlyFull [.alloc 0 0 1, .alloc 0 0 1, .alloc 1 1 0, .alloc 2 0 0] = [3, 7, -1] ∧
      FindsLowest nearlyFull.frames 32 ∧
      Enumerates nearlyFull.frames 32
        (framesReturned nearlyFull [.alloc 0 0 1, .alloc 0 0 1, .alloc 1 1 0, .alloc 2 0 0]) :=
  ⟨by decide +kernel, frames_enumerated (v := nearlyFull) (by decide) (by decide) (by simp [PfaCall.Allocates])⟩

end Icix
