import Icix.Mm.Tables

/-! malloc as the kernel calls it once paging is on. get_page clears a new page table through its
address; where that is not mapped there is a page fault, and page_fault aborts. -/
namespace Icix
open Bytes Runs

/- A pass of malloc's loop. -/
def touchPage (m : Mm) (j : Word) : Except Trap Mm :=
  if m.tables (j.toNat / 0x1000 / 1024) = 0 ∧ m.translate (alignFree m.freeAddr 1) = none then .error .abort
  else mapPage m j

/-- A call of malloc that returns. -/
def allocate (fuel : Nat) (h : Heap) (size : Word) : Except Unit Heap :=
  let (ret, m) := kmalloc h.mm size 1
  match mallocLoop touchPage fuel m ret (size + ret) with
  | some (.ok m) => .ok ⟨m, ⟨ret, size⟩ :: h.blocks⟩
  | _ => .error ()

/- The pages of the blocks for these sizes. -/
def blockPages : List Word → Nat
  | [] => 0
  | size :: sizes => (size.toNat + 4095) / 4096 + blockPages sizes

theorem touchPage_ok {m m' : Mm} {j : Word} (returned : touchPage m j = .ok m') : mapPage m j = .ok m' := by
  unfold touchPage at returned
  split at returned
  · cases returned
  · exact returned

/-- A call that does not fault does what malloc does. -/
theorem allocate_malloc {fuel : Nat} {h h' : Heap} {size : Word} (returned : allocate fuel h size = .ok h') :
    mallocCall fuel h size = .ok h' := by
  have same : ∀ fuel m j stop m', mallocLoop touchPage fuel m j stop = some (.ok m') →
      mallocLoop mapPage fuel m j stop = some (.ok m') := by
    intro fuel
    induction fuel with
    | zero => exact fun _ _ _ _ none => none
    | succ fuel ih =>
      intro m j stop m' ended
      rw [mallocLoop] at ended ⊢
      split at ended
      · rename_i more
        cases pass : touchPage m j with
        | error t =>
          rw [pass] at ended
          cases ended
        | ok m1 =>
          rw [pass] at ended
          rw [if_pos more, touchPage_ok pass]
          exact ih _ _ _ _ ended
      · rename_i past
        rw [if_neg past]
        exact ended
  simp only [allocate, kmalloc] at returned
  split at returned
  · rename_i m loop
    cases Except.ok.inj returned
    simp only [mallocCall, malloc, kmalloc, same _ _ _ _ _ loop]
    rfl
  · cases returned

theorem touchPage_made {m : Mm} {j : Word} (made : m.tables (j.toNat / 0x1000 / 1024) ≠ 0) : touchPage m j = mapPage m j :=
  if_neg fun faults => made faults.1

/-- Over pages that all have tables nothing faults. -/
theorem TablesKept.touches {start m m' : Mm} {k fuel : Nat} {j stop : Word} (paged : Paged start k) (kept : TablesKept start k m)
    (aligned : j.toNat % 4096 = 0) (tabled : ∀ i, j ≤ i → i < stop → start.tables (i.toNat / 0x1000 / 1024) ≠ 0)
    (returned : mallocLoop mapPage fuel m j stop = some (.ok m')) : mallocLoop touchPage fuel m j stop = some (.ok m') := by
  have bound := mallocLoop_stops aligned returned
  induction fuel generalizing m j with
  | zero => cases returned
  | succ fuel ih =>
    rw [mallocLoop]
    rcases mallocLoop_ok returned with ⟨past, rfl⟩ | ⟨more, m1, step, returned⟩
    · rw [if_neg (BitVec.not_lt.mpr (BitVec.le_def.mpr past))]
    · have advance : (j + 0x1000).toNat = j.toNat + 4096 := by
        rw [add_page_toNat]
        omega
      have made := tabled j (BitVec.le_def.mpr (Nat.le_refl _)) (BitVec.lt_def.mpr more)
      have first := (kept.pass paged made step).1
      rw [if_pos (BitVec.lt_def.mpr more), touchPage_made (kept.tables ▸ made), step]
      refine ih first (by omega) (fun i low high => tabled i ?_ high) returned
      rw [BitVec.le_def] at low ⊢
      omega

/-- A heap after calls that have made no table, with the next page to be mapped after free_addr. -/
structure Snug (start : Mm) (k : Nat) (h : Heap) (k' : Nat) : Prop where
  ok : HeapOk start h k'
  kept : TablesKept start k h.mm
  next : h.mm.nextPage ≤ k'

section Calls

variable {boot start : Mm} {k : Nat} (started : Started boot start k)
include started

theorem Started.snug : Snug start k ⟨start, []⟩ k where
  ok := started.ok
  kept := started.kept
  next := by
    have caught := started.caught
    simp only [Mm.nextPage]
    omega

/-- A call returns while its block ends in the regions that init_paging has made tables for. -/
theorem Snug.allocate {h : Heap} {k' fuel : Nat} {size : Word} (snug : Snug start k h k')
    (room : k' + (size.toNat + 4095) / 4096 ≤ 1024 * ((k + 1023) / 1024)) (enough : (size.toNat + 4095) / 4096 < fuel) :
    ∃ h', allocate fuel h size = .ok h' ∧ Snug start k h' (k' + (size.toNat + 4095) / 4096) := by
  have le := started.ok.le
  have next := snug.next
  have unwrapped : Unwrapped h size := by
    unfold Unwrapped
    omega
  obtain ⟨h', returned⟩ := snug.ok.returns unwrapped (by omega) enough
  have bumped := kmalloc_bumped unwrapped
  have tabled : Tabled h size := by
    refine ⟨unwrapped, fun j _ high => ?_⟩
    rw [BitVec.lt_def, bumped.stop] at high
    rw [snug.kept.tables]
    exact (started.made _).mpr (by omega)
  obtain ⟨blocks, loop⟩ := mallocCall_ok returned
  obtain ⟨kept, free⟩ := (started.call snug.kept unwrapped returned).1 tabled
  have kmalloced : TablesKept start k (kmalloc h.mm size 1).2 :=
    ⟨snug.kept.tables, snug.kept.kernelDir, snug.kept.nframes, snug.kept.bits, snug.kept.fresh, snug.kept.old⟩
  have touched := kmalloced.touches started.ok.paged (alignFree_aligned h.mm.freeAddr)
    (fun i low high => snug.kept.tables ▸ tabled.table i low high) loop
  refine ⟨h', ?_, (snug.ok.call unwrapped returned).1, kept, ?_⟩
  · simp only [Icix.allocate, kmalloc] at touched ⊢
    rw [touched, ← blocks]
  · have after := bumped.next
    rw [Mm.nextPage, ← free] at after
    rw [Mm.nextPage, after]
    omega

/-- So does a run of calls. -/
theorem Snug.run {h : Heap} {k' fuel : Nat} {sizes : List Word} (snug : Snug start k h k')
    (room : k' + blockPages sizes ≤ 1024 * ((k + 1023) / 1024)) (enough : ∀ size ∈ sizes, (size.toNat + 4095) / 4096 < fuel) :
    ∃ h', Run (Icix.allocate fuel) (fun _ _ => True) h sizes h' := by
  induction sizes generalizing h k' with
  | nil => exact ⟨h, .nil h⟩
  | cons size sizes ih =>
    rw [blockPages] at room
    obtain ⟨h1, first, snug1⟩ := snug.allocate started (by omega) (enough size List.mem_cons_self)
    obtain ⟨h', rest⟩ := ih snug1 (by omega) fun size mem => enough size (List.mem_cons_of_mem _ mem)
    exact ⟨h', .cons trivial first rest⟩

end Calls

/-- From a low free_addr the loop of init_paging ends in the first region. -/
theorem init_paging_low {boot : Mm} (clear : ∀ w, 32 ≤ w → w < 128 → boot.frames w = 0)
    (low : boot.freeAddr.toNat ≤ 0x3F4000) :
    ∃ start k, initPaging 4097 boot = some (.exit start) ∧ Started boot start k ∧ 0 < k ∧
      4096 * k ≤ boot.freeAddr.toNat + 24705 := by
  obtain ⟨e, ended, outcome⟩ := mapKernel_ends (Nat.zero_le _) (by decide : 4097 ≤ 0 + 4097)
    (initTables_lockstep (by unfold memSize; omega) clear)
  unfold memSize at outcome
  rcases outcome with ⟨above, below⟩ | ⟨m, rfl, k, le, inv, caught⟩
  · omega
  · have rise := inv.rise
    have directory := inv.directory
    have positive : 0 < k := by omega
    have last := inv.below (k - 1) (by omega)
    have few : (k + 1023) / 1024 ≤ 4 := by omega
    have one : (k + 1023) / 1024 ≤ 1 := by omega
    exact ⟨m, k, ended, inv.started le caught, positive, by omega⟩

/-- Where the blocks end in the first region, too, no malloc faults. -/
theorem low_mallocs {boot : Mm} {sizes : List Word} {fuel : Nat} (clear : ∀ w, 32 ≤ w → w < 128 → boot.frames w = 0)
    (room : boot.freeAddr.toNat + 4096 * (12 + blockPages sizes) ≤ 0x400000)
    (enough : ∀ size ∈ sizes, (size.toNat + 4095) / 4096 < fuel) :
    ∃ start h, initPaging 4097 boot = some (.exit start) ∧
      Run (allocate fuel) (fun _ _ => True) ⟨start, []⟩ sizes h := by
  obtain ⟨start, k, ended, started, positive, low⟩ := init_paging_low clear (by omega)
  obtain ⟨h, run⟩ := started.snug.run started (by omega) enough
  exact ⟨start, h, ended, run⟩

end Icix
