import Icix.Mm.Malloc

/-! The frame bitmap against the block that init_paging asks for it, which has a byte for every
four of the bitmap, and against the blocks that kmalloc returns later. -/
namespace Icix
open Bytes

/- The addresses of a block, modulo 2^32. -/
def Block.Covers (b : Block) (x : Word) : Prop := (x - b.addr).toNat < b.size.toNat

/- The addresses of the words that first_frame goes through. -/
def Mm.InBitmap (m : Mm) (x : Word) : Prop := (x - m.framesAddr).toNat < 4 * indexFromBit m.nframes

/- What init_paging asks for the bitmap. -/
def bitmapBlock (boot : Mm) : Block :=
  let size := BitVec.ofNat 32 (indexFromBit (memSize / pageSize))
  ⟨(kmalloc boot size 0).1, size⟩

/- The blocks that calls of kmalloc return, given by their sizes and alignments. -/
def kmallocs (m : Mm) : List (Word × Int) → List Block
  | [] => []
  | (size, align) :: calls =>
    let (addr, m) := kmalloc m size align
    ⟨addr, size⟩ :: kmallocs m calls

/- From the directory on. -/
def laterBlocks (boot : Mm) (calls : List (Word × Int)) : List Block :=
  ⟨(initTables boot).kernelDir, 8196⟩ :: kmallocs (initTables boot) calls

/-- The bitmap lies in its block and apart from all later ones, and is cleared. -/
structure BitmapSafe (boot : Mm) (calls : List (Word × Int)) : Prop where
  inside : ∀ x, (initTables boot).InBitmap x → (bitmapBlock boot).Covers x
  apart : ∀ b ∈ laterBlocks boot calls, ∀ x, (initTables boot).InBitmap x → ¬ b.Covers x
  zero : ∀ w < indexFromBit (initTables boot).nframes, (initTables boot).frames w = 0

/- alignFree and free_addr after calls, as numbers that do not wrap. -/
def alignedFree (free : Nat) (align : Int) : Nat := if align = 1 then (free + 4095) / 4096 * 4096 else free

def freeAfter (free : Nat) : List (Word × Int) → Nat
  | [] => free
  | (size, align) :: calls => freeAfter (alignedFree free align + size.toNat) calls

theorem alignedFree_ge (free : Nat) (align : Int) : free ≤ alignedFree free align := by
  unfold alignedFree
  split <;> omega

theorem freeAfter_ge (free : Nat) (calls : List (Word × Int)) : free ≤ freeAfter free calls := by
  induction calls generalizing free with
  | nil => exact Nat.le_refl _
  | cons c calls ih =>
    have first := alignedFree_ge free c.2
    exact Nat.le_trans (Nat.le_trans first (Nat.le_add_right ..)) (ih (alignedFree free c.2 + c.1.toNat))

/-- A call that does not wrap returns a block at free_addr or above, and moves it behind. -/
theorem kmalloc_free {m : Mm} {size : Word} {align : Int}
    (fits : alignedFree m.freeAddr.toNat align + size.toNat < 4294967296) :
    (kmalloc m size align).1.toNat = alignedFree m.freeAddr.toNat align ∧
      (kmalloc m size align).2.freeAddr.toNat = alignedFree m.freeAddr.toNat align + size.toNat := by
  have addr : (alignFree m.freeAddr align).toNat = alignedFree m.freeAddr.toNat align := by
    unfold alignedFree at fits ⊢
    by_cases aligned : align = 1
    · rw [if_pos aligned] at fits ⊢
      have next := @alignFree_next m (by unfold Mm.nextPage; omega)
      rw [aligned, next, Nat.mul_comm]
      rfl
    · rw [if_neg aligned, alignFree, if_neg fun both => aligned both.1]
  refine ⟨addr, ?_⟩
  have sum : (alignFree m.freeAddr align + size).toNat = _ := BitVec.toNat_add ..
  rw [addr, Nat.mod_eq_of_lt fits] at sum
  exact sum

theorem kmallocs_above {m : Mm} {calls : List (Word × Int)} (fits : freeAfter m.freeAddr.toNat calls < 4294967296) :
    ∀ b ∈ kmallocs m calls, m.freeAddr.toNat ≤ b.addr.toNat ∧ b.addr.toNat + b.size.toNat < 4294967296 := by
  induction calls generalizing m with
  | nil =>
    intro b mem
    cases mem
  | cons c calls ih =>
    obtain ⟨size, align⟩ := c
    rw [freeAfter] at fits
    have start := alignedFree_ge m.freeAddr.toNat align
    have room := Nat.lt_of_le_of_lt (freeAfter_ge _ calls) fits
    obtain ⟨addr, free⟩ := kmalloc_free room
    intro b mem
    rcases List.mem_cons.mp mem with rfl | later
    · exact ⟨Nat.le_trans start (Nat.le_of_eq addr.symm), Nat.lt_of_le_of_lt (Nat.le_of_eq (congrArg (· + size.toNat) addr)) room⟩
    · rw [← free] at fits
      have above := ih fits b later
      rw [free] at above
      exact ⟨by omega, above.2⟩

section Boot

variable (boot : Mm)

theorem initTables_words : indexFromBit (initTables boot).nframes = 128 := by
  have nframes : (initTables boot).nframes = memSize / pageSize := rfl
  rw [nframes]
  rfl

theorem initTables_frames : (initTables boot).framesAddr = boot.freeAddr := alignFree_zero boot.freeAddr

theorem bitmapBlock_eq : bitmapBlock boot = ⟨boot.freeAddr, 128⟩ :=
  congrArg (fun addr => Block.mk addr 128) (alignFree_zero boot.freeAddr)

/-- The 129th byte of the bitmap is not in its block, wherever that is. -/
theorem bitmap_outside : (initTables boot).InBitmap (boot.freeAddr + 128) ∧
    ¬ (bitmapBlock boot).Covers (boot.freeAddr + 128) := by
  have distance : boot.freeAddr + 128 - boot.freeAddr = 128 := by rw [BitVec.add_comm, BitVec.add_sub_cancel]
  rw [Mm.InBitmap, initTables_frames, initTables_words, bitmapBlock_eq, Block.Covers, distance]
  exact ⟨show 128 < 4 * 128 by decide, Nat.lt_irrefl 128⟩

/-- The memset clears a quarter of the words. -/
theorem bitmap_zero_iff : (∀ w < indexFromBit (initTables boot).nframes, (initTables boot).frames w = 0) ↔
    ∀ w, 32 ≤ w → w < 128 → boot.frames w = 0 := by
  have words : ∀ w, (initTables boot).frames w = if 4 * w < 128 then 0 else boot.frames w := fun w => rfl
  rw [initTables_words]
  constructor
  · intro zero w low high
    have here := zero w high
    rwa [words, if_neg (by omega)] at here
  · intro clear w high
    rw [words]
    split
    · rfl
    · exact clear w (by omega) high

variable {boot} {calls : List (Word × Int)} (fits : freeAfter boot.freeAddr.toNat ((128, 0) :: (8196, 1) :: calls) < 4294967296)
include fits

theorem directory_free : (initTables boot).kernelDir.toNat = alignedFree (boot.freeAddr.toNat + 128) 1 ∧
    (initTables boot).freeAddr.toNat = alignedFree (boot.freeAddr.toNat + 128) 1 + 8196 ∧
    alignedFree (boot.freeAddr.toNat + 128) 1 + 8196 < 4294967296 := by
  have room : alignedFree (boot.freeAddr.toNat + 128) 1 + 8196 < 4294967296 :=
    Nat.lt_of_le_of_lt (freeAfter_ge _ calls) fits
  have start := alignedFree_ge (boot.freeAddr.toNat + 128) 1
  have first : alignedFree boot.freeAddr.toNat 0 + (128 : Word).toNat = boot.freeAddr.toNat + 128 := rfl
  have free := (@kmalloc_free boot 128 0 (by rw [first]; omega)).2
  rw [first] at free
  obtain ⟨addr, behind⟩ := @kmalloc_free (kmalloc boot 128 0).2 8196 1 (by rw [free]; exact room)
  rw [free] at addr behind
  exact ⟨addr, behind, room⟩

/-- Without a wrap, the blocks are apart from the bitmap if and only if the gap before the
directory has the rest of it. -/
theorem bitmap_apart_iff :
    (∀ b ∈ laterBlocks boot calls, ∀ x, (initTables boot).InBitmap x → ¬ b.Covers x) ↔
      boot.freeAddr.toNat + 512 ≤ alignedFree (boot.freeAddr.toNat + 128) 1 := by
  obtain ⟨addr, free, room⟩ := directory_free fits
  have start := alignedFree_ge (boot.freeAddr.toNat + 128) 1
  constructor
  · intro apart
    by_contra close
    apply apart _ List.mem_cons_self (initTables boot).kernelDir
    · rw [Mm.InBitmap, initTables_frames, initTables_words, BitVec.toNat_sub_of_le (by rw [BitVec.le_def]; omega)]
      omega
    · rw [Block.Covers, BitVec.sub_self]
      exact show 0 < 8196 by decide
  · intro gap b mem x bit covers
    have above : alignedFree (boot.freeAddr.toNat + 128) 1 ≤ b.addr.toNat ∧ b.addr.toNat + b.size.toNat < 4294967296 := by
      rcases List.mem_cons.mp mem with rfl | later
      · exact ⟨Nat.le_of_eq addr.symm, by rw [addr]; exact room⟩
      · have rest : freeAfter (initTables boot).freeAddr.toNat calls < 4294967296 := by
          rw [free]
          exact fits
        have behind := kmallocs_above rest b later
        exact ⟨by omega, behind.2⟩
    rw [Mm.InBitmap, initTables_frames, initTables_words, BitVec.toNat_sub] at bit
    rw [Block.Covers, BitVec.toNat_sub] at covers
    have size := x.isLt
    omega

end Boot

/-- The bitmap is never inside its block; what is behind the block is cleared only if it was
clear, and apart from the later blocks where the gap before the directory is large enough. -/
theorem bitmap_exceeds_block (boot : Mm) (calls : List (Word × Int)) :
    ¬ BitmapSafe boot calls ∧
      ((∀ w < indexFromBit (initTables boot).nframes, (initTables boot).frames w = 0) ↔
        ∀ w, 32 ≤ w → w < 128 → boot.frames w = 0) ∧
      (freeAfter boot.freeAddr.toNat ((128, 0) :: (8196, 1) :: calls) < 4294967296 →
        ((∀ b ∈ laterBlocks boot calls, ∀ x, (initTables boot).InBitmap x → ¬ b.Covers x) ↔
          boot.freeAddr.toNat + 512 ≤ alignedFree (boot.freeAddr.toNat + 128) 1)) := by
  refine ⟨fun safe => ?_, bitmap_zero_iff boot, bitmap_apart_iff⟩
  obtain ⟨bit, outside⟩ := bitmap_outside boot
  exact outside (safe.inside _ bit)

/-- From 0xF80 the directory starts right behind the block, in the bitmap. -/
theorem bitmap_in_directory : ¬ BitmapSafe (bootMm 0xF80) [] := by
  intro safe
  apply safe.apart ⟨0x1000, 8196⟩ List.mem_cons_self 0x1000
  · rw [Mm.InBitmap, initTables_frames, initTables_words]
    decide
  · rw [Block.Covers]
    decide

end Icix
