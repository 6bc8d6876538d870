import Icix.Mm.Malloc

/-! The page tables that get_page makes while malloc runs. kmalloc's address is used
both as the table's virtual address, through which it is cleared, and as its physical
one; but the free memory that it comes from has not been mapped. -/
namespace Icix
open Bytes Ownership Runs

/-- The passes of malloc's loop that follow one pass. -/
inductive Visits (stop : Word) : Mm → Word → Mm → Word → Prop
  | here (m : Mm) (j : Word) : Visits stop m j m j
  | next {m m1 m' : Mm} {j j' : Word} (more : j < stop) (passed : mapPage m j = .ok m1)
      (rest : Visits stop m1 (j + 0x1000) m' j') : Visits stop m j m' j'

/-- In a call of malloc from m, get_page makes a table in state m' for address j. -/
structure MakesTable (m : Mm) (size : Word) (m' : Mm) (j : Word) : Prop where
  visits : Visits (size + alignFree m.freeAddr 1) (kmalloc m size 1).2 (alignFree m.freeAddr 1) m' j
  more : j < size + alignFree m.freeAddr 1
  none : m'.tables (j.toNat / 0x1000 / 1024) = 0

/-- Every table that the call makes lies in a page that is mapped to itself by then. -/
def TablesMapped (m : Mm) (size : Word) : Prop :=
  ∀ m' j, MakesTable m size m' j →
    m'.translate (alignFree m'.freeAddr 1) = some (alignFree m'.freeAddr 1).toNat

/- The frames of the page directory and of the page tables. -/
def Mm.TableFrame (m : Mm) (f : Nat) : Prop :=
  (m.kernelDir.toNat / pageSize ≤ f ∧ f ≤ (m.kernelDir.toNat + 8195) / pageSize) ∨
  ∃ t, m.tables t ≠ 0 ∧ f = (m.tables t).toNat / pageSize

/- The addresses of the page directory and of the page tables. -/
def Mm.InTables (m : Mm) (a : Nat) : Prop :=
  (m.kernelDir.toNat ≤ a ∧ a < m.kernelDir.toNat + 8196) ∨
  ∃ t, m.tables t ≠ 0 ∧ (m.tables t).toNat ≤ a ∧ a < (m.tables t).toNat + pageSize

/-- The directory and the tables share nothing with the heap: no frame handed out since
start is one of theirs, and no block has an address of theirs. -/
structure TablesApart (start : Mm) (h : Heap) : Prop where
  frames : ∀ p f, h.mm.held p = some f → start.held p = none → ¬ h.mm.TableFrame f
  blocks : ∀ b ∈ h.blocks, ∀ a, b.Has a → ¬ h.mm.InTables a

/-- The block ends below 2^32, and every page of it has a page table before the call. -/
structure Tabled (h : Heap) (size : Word) : Prop where
  unwrapped : Unwrapped h size
  table : ∀ j, alignFree h.mm.freeAddr 1 ≤ j → j < size + alignFree h.mm.freeAddr 1 →
    h.mm.tables (j.toNat / 0x1000 / 1024) ≠ 0

theorem alignFree_aligned (freeAddr : Word) : (alignFree freeAddr 1).toNat % 4096 = 0 := by
  have low := low_bits freeAddr
  unfold alignFree
  split
  · rw [add_page_toNat, high_bits]
    omega
  · rename_i aligned
    by_contra off
    refine aligned ⟨rfl, fun zero => off ?_⟩
    rw [zero] at low
    exact low.symm

/-- A loop that returns does not run to the last page, where its counter would wrap. -/
theorem mallocLoop_stops {fuel : Nat} {m m' : Mm} {j stop : Word} (aligned : j.toNat % 4096 = 0)
    (returned : mallocLoop mapPage fuel m j stop = some (.ok m')) : stop.toNat ≤ 4294963200 := by
  induction fuel generalizing m j with
  | zero => cases returned
  | succ fuel ih =>
    have small := j.isLt
    rcases mallocLoop_ok returned with ⟨past, _⟩ | ⟨_, m1, _, returned⟩
    · omega
    · refine ih ?_ returned
      rw [add_page_toNat]
      omega

/-- What calls keep that make no table: the tables themselves, and the first k frames. -/
structure TablesKept (start : Mm) (k : Nat) (m : Mm) : Prop where
  tables : m.tables = start.tables
  kernelDir : m.kernelDir = start.kernelDir
  nframes : m.nframes = 4096
  bits : ∀ f < k, frameBit m.frames f = true
  fresh : ∀ p f, m.held p = some f → start.held p = none → k ≤ f
  old : ∀ p f, start.held p = some f → m.held p = some f

section Kept

variable {start m m' : Mm} {k : Nat} (paged : Paged start k) (kept : TablesKept start k m)
include paged kept

/-- The frame that an absent page gets is none of the first k. -/
theorem TablesKept.allocated {p f : Nat} {v : Vmm Word} (made : m.tables (p / 1024) ≠ 0)
    (absent : (m.pages (entryAddr (m.tables (p / 1024)) (p % 1024))).present ≠ 1)
    (allocated : Allocated m.toVmm (entryAddr (m.tables (p / 1024)) (p % 1024)) f v) :
    TablesKept start k { m with toVmm := v } := by
  have new : k ≤ f := by
    by_contra less
    have set := kept.bits f (Nat.lt_of_not_le less)
    exact Bool.noConfusion (allocated.clear.symm.trans set)
  have others : ∀ q, q ≠ p → Mm.held { m with toVmm := v } q = m.held q := by
    intro q other
    unfold Mm.held Mm.entry
    by_cases madeQ : m.tables (q / 1024) = 0
    · rw [if_pos madeQ, if_pos madeQ]
    · have apart := paged.entry_ne (kept.tables ▸ madeQ) (kept.tables ▸ made) other
      rw [← kept.tables] at apart
      rw [if_neg madeQ, if_neg madeQ]
      simp only [Option.bind_some]
      rw [allocated.others _ apart]
  have mine : Mm.held { m with toVmm := v } p = some f :=
    Mm.held_eq_some.mpr ⟨_, Mm.entry_of_made made, allocated.present, allocated.frame⟩
  have empty : m.held p = none := by
    unfold Mm.held
    rw [Mm.entry_of_made made, Option.bind_some]
    exact if_neg absent
  constructor
  · exact kept.tables
  · exact kept.kernelDir
  · exact allocated.nframes.trans kept.nframes
  · intro g hg
    exact (allocated.bits g).trans (by rw [kept.bits g hg, Bool.or_true])
  · intro q g held none
    by_cases same : q = p
    · rw [same, mine] at held
      exact Option.some.inj held ▸ new
    · rw [others q same] at held
      exact kept.fresh q g held none
  · intro q g held
    by_cases same : q = p
    · have before := kept.old q g held
      rw [same, empty] at before
      cases before
    · rw [others q same]
      exact kept.old q g held

/-- A pass over a page that has a table keeps the tables, and its frame is a new one. -/
theorem TablesKept.pass {j : Word} (made : start.tables (j.toNat / 0x1000 / 1024) ≠ 0)
    (returned : mapPage m j = .ok m') : TablesKept start k m' ∧ m'.freeAddr = m.freeAddr := by
  obtain ⟨p, here⟩ : ∃ p, j.toNat / 0x1000 = p := ⟨_, rfl⟩
  have madeM : m.tables (p / 1024) ≠ 0 := by
    rw [kept.tables, ← here]
    exact made
  unfold mapPage at returned
  rw [getPage_made here madeM] at returned
  dsimp only at returned
  split at returned
  · cases returned
  · split at returned
    · rename_i zero
      have absent : (m.pages (entryAddr (m.tables (p / 1024)) (p % 1024))).present ≠ 1 := by rw [zero]; decide
      cases done : pfaAlloc m.toVmm (entryAddr (m.tables (p / 1024)) (p % 1024)) 0 0 with
      | error t =>
        rw [done] at returned
        cases returned
      | ok v =>
        rw [done] at returned
        cases returned
        obtain ⟨present, _⟩ | ⟨_, f, allocated⟩ := pfaAlloc_ok (by rw [kept.nframes]; decide) done
        · exact absurd present absent
        · exact ⟨kept.allocated paged madeM absent allocated, rfl⟩
    · cases returned
      exact ⟨kept, rfl⟩

/-- The whole loop, over pages that all have tables. -/
theorem TablesKept.loop {fuel : Nat} {j stop : Word} (aligned : j.toNat % 4096 = 0)
    (tabled : ∀ i, j ≤ i → i < stop → start.tables (i.toNat / 0x1000 / 1024) ≠ 0)
    (returned : mallocLoop mapPage fuel m j stop = some (.ok m')) : TablesKept start k m' ∧ m'.freeAddr = m.freeAddr := by
  have bound := mallocLoop_stops aligned returned
  induction fuel generalizing m j with
  | zero => cases returned
  | succ fuel ih =>
    rcases mallocLoop_ok returned with ⟨_, rfl⟩ | ⟨more, m1, step, returned⟩
    · exact ⟨kept, rfl⟩
    · have advance : (j + 0x1000).toNat = j.toNat + 4096 := by
        rw [add_page_toNat]
        omega
      obtain ⟨first, same⟩ := kept.pass paged (tabled j (BitVec.le_def.mpr (Nat.le_refl _)) (BitVec.lt_def.mpr more)) step
      refine same ▸ ih first (by omega) (fun i low high => tabled i ?_ high) returned
      rw [BitVec.le_def] at low ⊢
      omega

/-- In such a loop get_page makes no table. -/
theorem TablesKept.visits {j stop : Word} {j' : Word} (aligned : j.toNat % 4096 = 0) (bound : stop.toNat ≤ 4294963200)
    (tabled : ∀ i, j ≤ i → i < stop → start.tables (i.toNat / 0x1000 / 1024) ≠ 0)
    (visits : Visits stop m j m' j') (more : j' < stop) : m'.tables (j'.toNat / 0x1000 / 1024) ≠ 0 := by
  induction visits with
  | here m j =>
    rw [kept.tables]
    exact tabled j (BitVec.le_def.mpr (Nat.le_refl _)) more
  | @next m m1 m' j j' less passed rest ih =>
    have small := BitVec.lt_def.mp less
    have advance : (j + 0x1000).toNat = j.toNat + 4096 := by
      rw [add_page_toNat]
      omega
    have first := kept.pass paged (tabled j (BitVec.le_def.mpr (Nat.le_refl _)) less) passed
    refine ih first.1 (by omega) (fun i low high => tabled i ?_ high) more
    rw [BitVec.le_def] at low ⊢
    omega

/-- Otherwise the loop comes to a first page without one. -/
theorem TablesKept.makes {fuel : Nat} {j stop i : Word} (aligned : j.toNat % 4096 = 0) (low : j ≤ i) (high : i < stop)
    (none : start.tables (i.toNat / 0x1000 / 1024) = 0) (returned : mallocLoop mapPage fuel m j stop = some (.ok m')) :
    ∃ m1 j1, Visits stop m j m1 j1 ∧ j1 < stop ∧ m1.tables (j1.toNat / 0x1000 / 1024) = 0 ∧
      m1.tables = start.tables ∧ m1.freeAddr = m.freeAddr := by
  have bound := mallocLoop_stops aligned returned
  induction fuel generalizing m j with
  | zero => cases returned
  | succ fuel ih =>
    have less := Nat.lt_of_le_of_lt (BitVec.le_def.mp low) (BitVec.lt_def.mp high)
    have more : j < stop := BitVec.lt_def.mpr less
    by_cases made : m.tables (j.toNat / 0x1000 / 1024) = 0
    · exact ⟨m, j, .here m j, more, made, kept.tables, rfl⟩
    · rcases mallocLoop_ok returned with ⟨past, _⟩ | ⟨_, m1, step, returned⟩
      · omega
      · have advance : (j + 0x1000).toNat = j.toNat + 4096 := by
          rw [add_page_toNat]
          omega
        rw [kept.tables] at made
        obtain ⟨first, same⟩ := kept.pass paged made step
        have past : j + 0x1000 ≤ i := by
          rw [BitVec.le_def] at low ⊢
          by_contra within
          have index : i.toNat / 0x1000 = j.toNat / 0x1000 := by omega
          exact made (index ▸ none)
        obtain ⟨m2, j2, rest, last, empty, tables, free⟩ := ih first (by omega) past returned
        exact ⟨m2, j2, .next more step rest, last, empty, tables, free.trans same⟩

end Kept

section Calls

variable {boot start : Mm} {k : Nat} (started : Started boot start k)
include started

theorem Started.kept : TablesKept start k start where
  tables := rfl
  kernelDir := rfl
  nframes := started.ok.ahead.nframes
  bits f hf := (started.ok.ahead.bits f (Nat.lt_of_lt_of_le hf started.ok.le)).trans (decide_eq_true hf)
  fresh p f held none := by
    rw [held] at none
    cases none
  old _ _ held := held

/-- The tables and the directory are in the first k frames and below all blocks. -/
theorem Started.apart {h : Heap} {k' : Nat} (ok : HeapOk start h k') (kept : TablesKept start k h.mm) :
    TablesApart start h where
  frames p f held none frame := by
    have new := kept.fresh p f held none
    have directory := started.identity.directory
    have caught := started.caught
    rcases frame with ⟨_, high⟩ | ⟨t, made, same⟩
    · rw [kept.kernelDir] at high
      unfold pageSize at high
      omega
    · rw [kept.tables] at made same
      have placed : (start.tables t).toNat + 4096 ≤ start.freeAddr.toNat := started.ok.paged.placed t made
      unfold pageSize at same
      omega
  blocks b mem a has inTables := ((ok.blocksOk started.identity).apart b mem a has).2 (.inr inTables)

/-- A block with a page that has no table: get_page makes one, past the block, where
nothing is mapped. -/
theorem Started.unmapped {h h' : Heap} {fuel : Nat} {size j : Word} (kept : TablesKept start k h.mm)
    (returned : mallocCall fuel h size = .ok h') (low : alignFree h.mm.freeAddr 1 ≤ j)
    (high : j < size + alignFree h.mm.freeAddr 1) (bare : h.mm.tables (j.toNat / 0x1000 / 1024) = 0) :
    ∃ m' j', MakesTable h.mm size m' j' ∧ m'.translate (alignFree m'.freeAddr 1) = none := by
  obtain ⟨_, loop⟩ := mallocCall_ok returned
  have aligned := alignFree_aligned h.mm.freeAddr
  have bound := mallocLoop_stops aligned loop
  have bumped : TablesKept start k (kmalloc h.mm size 1).2 := ⟨kept.tables, kept.kernelDir, kept.nframes, kept.bits, kept.fresh, kept.old⟩
  rw [kept.tables] at bare
  obtain ⟨m1, j1, visits, more, empty, same, free⟩ := bumped.makes started.ok.paged aligned low high bare loop
  refine ⟨m1, j1, ⟨visits, more, empty⟩, ?_⟩
  have less := BitVec.lt_def.mp more
  have value : m1.freeAddr.toNat = (size + alignFree h.mm.freeAddr 1).toNat := by
    rw [free]
    exact congrArg BitVec.toNat (BitVec.add_comm _ _)
  have addr : (alignFree m1.freeAddr 1).toNat = (m1.freeAddr.toNat + 4095) / 4096 * 4096 := alignFree_one (by omega)
  rw [same] at empty
  -- a region after one without a table has none either
  have later : start.tables ((alignFree m1.freeAddr 1).toNat / pageSize / 1024) = 0 := by
    by_contra made
    have inside := (started.made _).mp made
    refine (started.made _).mpr ?_ empty
    unfold pageSize at inside
    omega
  have entry : m1.entry ((alignFree m1.freeAddr 1).toNat / pageSize) = none := if_pos (same ▸ later)
  rw [Mm.translate, entry]
  rfl

/-- A call that does not wrap makes no table that is not mapped exactly when it makes none at all. -/
theorem Started.call {h h' : Heap} {fuel : Nat} {size : Word} (kept : TablesKept start k h.mm)
    (unwrapped : Unwrapped h size) (returned : mallocCall fuel h size = .ok h') :
    (Tabled h size → TablesKept start k h'.mm ∧ h'.mm.freeAddr = (kmalloc h.mm size 1).2.freeAddr) ∧
      (TablesMapped h.mm size ↔ Tabled h size) := by
  have paged := started.ok.paged
  have aligned := alignFree_aligned h.mm.freeAddr
  obtain ⟨_, loop⟩ := mallocCall_ok returned
  have bound := mallocLoop_stops aligned loop
  have bumped : TablesKept start k (kmalloc h.mm size 1).2 := ⟨kept.tables, kept.kernelDir, kept.nframes, kept.bits, kept.fresh, kept.old⟩
  have tables : ∀ t, h.mm.tables t = start.tables t := fun t => congrFun kept.tables t
  refine ⟨fun tabled => bumped.loop paged aligned (fun i low high => tables _ ▸ tabled.table i low high) loop,
    fun mapped => ⟨unwrapped, fun j low high bare => ?_⟩, fun tabled m' j makes => ?_⟩
  · obtain ⟨m1, j1, makes, unmapped⟩ := started.unmapped kept returned low high bare
    have identity := mapped m1 j1 makes
    rw [unmapped] at identity
    cases identity
  · exact absurd makes.none
      (bumped.visits paged aligned bound (fun i low high => tables _ ▸ tabled.table i low high) makes.visits makes.more)

end Calls

/-- In a run of malloc whose blocks lie in regions that have page tables, the tables and the
directory are apart from the heap; and a next call whose block does not wrap meets the claim
of malloc exactly when its block does too. The words of the bitmap that init_paging does not
clear are clear. -/
theorem malloc_tables_safe {boot start : Mm} {fuel fuel' : Nat} {sizes : List Word} {h : Heap}
    (low : boot.freeAddr.toNat ≤ memSize) (clear : ∀ w, 32 ≤ w → w < 128 → boot.frames w = 0)
    (exited : initPaging fuel boot = some (.exit start)) (run : Run (mallocCall fuel') Tabled ⟨start, []⟩ sizes h) :
    TablesApart start h ∧ ∀ size h', Unwrapped h size → mallocCall fuel' h size = .ok h' →
      (TablesMapped h.mm size ∧ TablesApart start h' ↔ Tabled h size) := by
  obtain ⟨k, started⟩ := init_paging_started low clear exited
  obtain ⟨⟨k', ok⟩, kept⟩ := run.invariant (fun h => (∃ k', HeapOk start h k') ∧ TablesKept start k h.mm)
    (fun _ _ _ ⟨⟨_, ok⟩, kept⟩ tabled returned => ⟨⟨_, (ok.call tabled.unwrapped returned).1⟩,
      ((started.call kept tabled.unwrapped returned).1 tabled).1⟩) ⟨⟨k, started.ok⟩, started.kept⟩
  refine ⟨started.apart ok kept, fun size h' unwrapped returned => ?_⟩
  obtain ⟨next, exact⟩ := started.call kept unwrapped returned
  obtain ⟨ok', -⟩ := ok.call unwrapped returned
  exact ⟨fun safe => exact.mp safe.1, fun tabled => ⟨exact.mpr tabled, started.apart ok' (next tabled).1⟩⟩

/- What init_paging leaves when free_addr is 0x1000 at boot. -/
theorem boot_started : ∃ start k, initPaging 4097 (bootMm 0x1000) = some (.exit start) ∧ Started (bootMm 0x1000) start k ∧
    start.freeAddr = 0x6000 ∧ k = 6 := by
  have check : ((initPaging 4097 (bootMm 0x1000)).bind Ending.exited).any (fun start =>
      decide (start.freeAddr = 0x6000)) = true := by decide +kernel
  obtain ⟨start, exited, free⟩ := (Option.any_eq_true _ _).mp check
  obtain ⟨e, ended, exits⟩ := Option.bind_eq_some_iff.mp exited
  rw [decide_eq_true_eq] at free
  cases e with
  | trap => cases exits
  | exit m =>
    cases Option.some.inj exits
    have value : (0x6000 : Word).toNat = 24576 := by decide
    obtain ⟨k, started⟩ := init_paging_started (by decide) (fun _ _ _ => rfl) ended
    refine ⟨_, k, ended, started, free, ?_⟩
    have caught := started.caught
    rw [free, value] at caught
    by_contra more
    obtain ⟨e, entry, here, _⟩ := Mm.held_eq_some.mp ((started.held 6 6).mpr ⟨by omega, rfl⟩)
    have low := (started.identity.present 6 (by decide)).mp ⟨e, entry, here⟩
    rw [free, value] at low
    exact absurd low (by decide)

theorem malloc_tables_safe_page : ∃ start h, initPaging 4097 (bootMm 0x1000) = some (.exit start) ∧
    mallocCall 2 ⟨start, []⟩ 4096 = .ok h ∧ TablesApart start h := by
  obtain ⟨start, k, exited, started, free, rfl⟩ := boot_started
  have aligned : alignFree start.freeAddr 1 = 0x6000 := by rw [free]; decide
  have unwrapped : Unwrapped ⟨start, []⟩ 4096 := by
    unfold Unwrapped Mm.nextPage
    rw [free]
    decide
  obtain ⟨h, returned⟩ := started.ok.returns unwrapped (by decide : 6 + ((4096 : Word).toNat + 4095) / 4096 ≤ 4096)
    (by decide : ((4096 : Word).toNat + 4095) / 4096 < 2)
  have tabled : Tabled ⟨start, []⟩ 4096 := by
    refine ⟨unwrapped, fun j _ high => ?_⟩
    dsimp only at high ⊢
    rw [aligned, BitVec.lt_def] at high
    have value : ((4096 : Word) + 0x6000).toNat = 28672 := by decide
    have region : j.toNat / 0x1000 / 1024 = 0 := by omega
    rw [region]
    exact (started.made 0).mpr (by decide)
  have run : Run (mallocCall 2) Tabled ⟨start, []⟩ [4096] h := .cons tabled returned (.nil h)
  exact ⟨start, h, exited, returned, (malloc_tables_safe (by decide) (fun _ _ _ => rfl) exited run).1⟩

/-- A block of 4 MB goes past the first page table, and the table that get_page then
makes is not mapped. -/
theorem malloc_table_unmapped : ∃ start h m j, initPaging 4097 (bootMm 0x1000) = some (.exit start) ∧
    mallocCall 1025 ⟨start, []⟩ 0x400000 = .ok h ∧ MakesTable start 0x400000 m j ∧
    m.translate (alignFree m.freeAddr 1) = none ∧ ¬ TablesMapped start 0x400000 := by
  obtain ⟨start, k, exited, started, free, rfl⟩ := boot_started
  have aligned : alignFree start.freeAddr 1 = 0x6000 := by rw [free]; decide
  have unwrapped : Unwrapped ⟨start, []⟩ 0x400000 := by
    unfold Unwrapped Mm.nextPage
    rw [free]
    decide
  obtain ⟨h, returned⟩ := started.ok.returns unwrapped
    (by decide : 6 + ((0x400000 : Word).toNat + 4095) / 4096 ≤ 4096)
    (by decide : ((0x400000 : Word).toNat + 4095) / 4096 < 1025)
  have bare : start.tables ((0x400000 : Word).toNat / 0x1000 / 1024) = 0 := by
    by_contra made
    exact absurd ((started.made _).mp made) (by decide)
  obtain ⟨m, j, makes, unmapped⟩ := @Started.unmapped _ _ _ started ⟨start, []⟩ h 1025 0x400000 0x400000 started.kept
    returned (by dsimp only; rw [aligned]; decide) (by dsimp only; rw [aligned]; decide) bare
  refine ⟨start, h, m, j, exited, returned, makes, unmapped, fun mapped => ?_⟩
  have identity := mapped m j makes
  rw [unmapped] at identity
  cases identity

end Icix
