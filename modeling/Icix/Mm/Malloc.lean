import Icix.Mm.Paging

/-! malloc of kernel/arch/i386/pmm.c, for use once init_paging has run. A block is a
range of the same bump allocation that page tables come from, and the pages it meets
are mapped one by one. -/
namespace Icix
open Bytes Ownership Runs

/- One pass of malloc's loop. -/
def mapPage (m : Mm) (j : Word) : Except Trap Mm :=
  let (page, m) := getPage m j 1
  -- assert(page != NULL)
  if page = 0 then .error .abort
  else if (m.pages page).present = 0 then
    match pfaAlloc m.toVmm page 0 0 with
    | .error t => .error t
    | .ok v => .ok { m with toVmm := v }
  else .ok m

/-- The loop of malloc, which stops where fuel runs out only if it has not ended by then. -/
def mallocLoop (pass : Mm → Word → Except Trap Mm) : Nat → Mm → Word → Word → Option (Except Trap Mm)
  | 0, _, _, _ => none
  | fuel + 1, m, j, stop =>
    if j < stop then
      match pass m j with
      | .error t => some (.error t)
      | .ok m => mallocLoop pass fuel m (j + 0x1000) stop
    else some (.ok m)

def malloc (fuel : Nat) (m : Mm) (size : Word) : Option (Except Trap (Word × Mm)) :=
  let (ret, m) := kmalloc m size 1
  (mallocLoop mapPage fuel m ret (size + ret)).map fun ended => ended.map fun m => (ret, m)

structure Block where
  addr : Word
  size : Word
  deriving DecidableEq

def Block.Has (b : Block) (a : Nat) : Prop := b.addr.toNat ≤ a ∧ a < b.addr.toNat + b.size.toNat

/- The machine and the blocks that malloc has returned, the last one first. -/
structure Heap where
  mm : Mm
  blocks : List Block

/-- A call of malloc that returns. -/
def mallocCall (fuel : Nat) (h : Heap) (size : Word) : Except Unit Heap :=
  match malloc fuel h.mm size with
  | some (.ok (ret, m)) => .ok ⟨m, ⟨ret, size⟩ :: h.blocks⟩
  | _ => .error ()

/- The number of the first page that starts at free_addr or after it. -/
def Mm.nextPage (m : Mm) : Nat := (m.freeAddr.toNat + 4095) / 4096

/-- The sum that malloc adds to free_addr does not pass 2^32. -/
def Unwrapped (h : Heap) (size : Word) : Prop := 4096 * h.mm.nextPage + size.toNat < 4294967296

/- The frame of a page that is present. -/
def Mm.held (m : Mm) (p : Nat) : Option Nat :=
  (m.entry p).bind fun e => if e.present = 1 then some e.frame.toNat else none

theorem Mm.held_eq_some {m : Mm} {p f : Nat} :
    m.held p = some f ↔ ∃ e, m.entry p = some e ∧ e.present = 1 ∧ e.frame.toNat = f := by
  unfold Mm.held
  rw [Option.bind_eq_some_iff]
  constructor
  · rintro ⟨e, entry, held⟩
    split at held
    · rename_i here
      exact ⟨e, entry, here, Option.some.inj held⟩
    · cases held
  · rintro ⟨e, entry, here, rfl⟩
    exact ⟨e, entry, if_pos here⟩

theorem Mm.entry_of_made {m : Mm} {p : Nat} (made : m.tables (p / 1024) ≠ 0) :
    m.entry p = some (m.pages (entryAddr (m.tables (p / 1024)) (p % 1024))) := if_neg made

theorem Mm.made_of_entry {m : Mm} {p : Nat} {e : Page} (entry : m.entry p = some e) :
    m.tables (p / 1024) ≠ 0 ∧ m.pages (entryAddr (m.tables (p / 1024)) (p % 1024)) = e := by
  unfold Mm.entry at entry
  split at entry
  · cases entry
  · rename_i made
    exact ⟨made, Option.some.inj entry⟩

/-- Nothing from page p on is mapped, and the first k frames are taken. This does
not say where the tables are. -/
structure Ahead (m : Mm) (p k : Nat) : Prop where
  nframes : m.nframes = 4096
  bits : ∀ f < 4096, frameBit m.frames f = decide (f < k)
  later : ∀ t, p < 1024 * t → m.tables t = 0
  absent : ∀ j < 1024, p % 1024 ≤ j → m.tables (p / 1024) ≠ 0 →
    (m.pages (entryAddr (m.tables (p / 1024)) j)).present ≠ 1

theorem entryAddr_ne (table : Word) {i j : Nat} (hi : i < 1024) (hj : j < 1024) (other : i ≠ j) :
    entryAddr table i ≠ entryAddr table j := by
  intro same
  have offsets := congrArg BitVec.toNat (BitVec.add_right_inj table |>.mp same)
  rw [BitVec.toNat_ofNat, BitVec.toNat_ofNat] at offsets
  omega

theorem clearTable_self (pages : Word → Page) (table : Word) {j : Nat} (hj : j < 1024) :
    clearTable pages table (entryAddr table j) = emptyPage := by
  refine if_pos ?_
  rw [entryAddr, BitVec.add_comm, BitVec.add_sub_cancel, BitVec.toNat_ofNat, pageSize]
  omega

theorem getPage_made {m : Mm} {j : Word} {p : Nat} (here : j.toNat / 0x1000 = p) (made : m.tables (p / 1024) ≠ 0) :
    getPage m j 1 = (entryAddr (m.tables (p / 1024)) (p % 1024), m) := by
  unfold getPage
  rw [here]
  exact if_pos made

theorem getPage_make {m : Mm} {j : Word} {p : Nat} (here : j.toNat / 0x1000 = p) (none : m.tables (p / 1024) = 0) :
    getPage m j 1 =
      (entryAddr ((makeTable m (p / 1024)).tables (p / 1024)) (p % 1024), makeTable m (p / 1024)) := by
  unfold getPage
  rw [here]
  dsimp only
  rw [if_neg (not_not.mpr none)]
  exact if_pos (by decide)

section Ahead

variable {m : Mm} {p k : Nat} (ahead : Ahead m p k)
include ahead

theorem Ahead.mono {q : Nat} (le : p ≤ q) : Ahead m q k where
  nframes := ahead.nframes
  bits := ahead.bits
  later t ht := ahead.later t (Nat.lt_of_le_of_lt le ht)
  absent j hj low made := by
    have region : q / 1024 = p / 1024 := by
      by_contra other
      exact made (ahead.later _ (by omega))
    rw [region] at made ⊢
    exact ahead.absent j hj (by omega) made

/-- get_page gives an entry that is not present, in a new table if need be. -/
theorem Ahead.get {j : Word} (here : j.toNat / 0x1000 = p) :
    (getPage m j 1).1 = entryAddr ((getPage m j 1).2.tables (p / 1024)) (p % 1024) ∧ Ahead (getPage m j 1).2 p k ∧
      ((getPage m j 1).2.pages (getPage m j 1).1).present ≠ 1 := by
  have inside : p % 1024 < 1024 := Nat.mod_lt _ (by decide)
  by_cases made : m.tables (p / 1024) = 0
  · rw [getPage_make here made]
    have table : (makeTable m (p / 1024)).tables (p / 1024) = alignFree m.freeAddr 1 := Function.update_self ..
    have clear : ∀ j < 1024, ((makeTable m (p / 1024)).pages
        (entryAddr ((makeTable m (p / 1024)).tables (p / 1024)) j)).present ≠ 1 := by
      intro j hj
      rw [table]
      change (clearTable m.pages (alignFree m.freeAddr 1) _).present ≠ 1
      rw [clearTable_self _ _ hj]
      decide
    refine ⟨rfl, ⟨ahead.nframes, ahead.bits, fun t ht => ?_, fun j hj _ _ => clear j hj⟩, clear _ inside⟩
    have other : t ≠ p / 1024 := by
      rintro rfl
      exact absurd ht (by omega)
    exact (Function.update_of_ne other ..).trans (ahead.later t ht)
  · rw [getPage_made here made]
    exact ⟨rfl, ahead, ahead.absent _ inside (Nat.le_refl _) made⟩

/-- Mapping page p takes frame k. -/
theorem Ahead.map {v : Vmm Word}
    (allocated : Allocated m.toVmm (entryAddr (m.tables (p / 1024)) (p % 1024)) k v) :
    Ahead { m with toVmm := v } (p + 1) (k + 1) where
  nframes := allocated.nframes.trans ahead.nframes
  bits f hf := by
    change frameBit v.frames f = _
    rw [allocated.bits f, ahead.bits f hf, ← Bool.decide_or, decide_eq_decide]
    omega
  later t ht := ahead.later t (Nat.lt_of_succ_lt ht)
  absent j hj low made := by
    have region : (p + 1) / 1024 = p / 1024 := by
      by_contra other
      exact made (ahead.later _ (by omega))
    rw [region] at made ⊢
    have other : p % 1024 ≠ j := by omega
    have kept := allocated.others _ (entryAddr_ne (m.tables (p / 1024)) hj (Nat.mod_lt _ (by decide)) other.symm)
    change (v.pages _).present ≠ 1
    rw [kept]
    exact ahead.absent j hj (by omega) made

/-- What one pass does: it takes the next frame, or there is none. -/
theorem Ahead.step {j : Word} (here : j.toNat / 0x1000 = p) (le : k ≤ 4096) :
    (∃ v, pfaAlloc (getPage m j 1).2.toVmm (getPage m j 1).1 0 0 = .ok v ∧ k < 4096 ∧
      Allocated (getPage m j 1).2.toVmm (entryAddr ((getPage m j 1).2.tables (p / 1024)) (p % 1024)) k v ∧
      Ahead { (getPage m j 1).2 with toVmm := v } (p + 1) (k + 1)) ∨
    k = 4096 ∧ pfaAlloc (getPage m j 1).2.toVmm (getPage m j 1).1 0 0 = .error .abort := by
  obtain ⟨entry, ahead', absent⟩ := ahead.get here
  generalize (getPage m j 1).2 = m' at entry ahead' absent ⊢
  generalize (getPage m j 1).1 = page at entry absent ⊢
  subst entry
  rcases Nat.lt_or_eq_of_le le with lt | full
  · have scan : scanFrames m'.frames m'.nframes = some k := by
      rw [ahead'.nframes]
      exact scanFrames_prefix ahead'.bits (by unfold indexFromBit; omega)
    obtain ⟨v, done, allocated⟩ := pfaAlloc_found 0 0 (by rw [ahead'.nframes]; decide) absent scan
    exact Or.inl ⟨v, done, lt, allocated, ahead'.map allocated⟩
  · have scan : scanFrames m'.frames m'.nframes = none := by
      rw [ahead'.nframes]
      exact scanFrames_taken ahead'.bits (Nat.le_of_eq full.symm)
    exact Or.inr ⟨full, pfaAlloc_full 0 0 absent scan⟩

end Ahead

/-- A pass of malloc's loop that returns. -/
theorem mapPage_ok {m m' : Mm} {p k : Nat} {j : Word} (ahead : Ahead m p k) (here : j.toNat / 0x1000 = p)
    (le : k ≤ 4096) (returned : mapPage m j = .ok m') :
    k < 4096 ∧ Ahead m' (p + 1) (k + 1) ∧ ∃ v, m' = { (getPage m j 1).2 with toVmm := v } ∧
      Allocated (getPage m j 1).2.toVmm (entryAddr ((getPage m j 1).2.tables (p / 1024)) (p % 1024)) k v := by
  have zero := WordBits.bit_zero (ahead.get here).2.2
  simp only [mapPage, zero, if_true] at returned
  split at returned
  · cases returned
  · rcases ahead.step here le with ⟨v, done, lt, allocated, next⟩ | ⟨_, failed⟩
    · rw [done] at returned
      cases returned
      exact ⟨lt, next, v, rfl, allocated⟩
    · rw [failed] at returned
      cases returned

/-- However large free_addr is, the loop of init_paging gets past it only where it
lies in the physical memory; otherwise the frames run out. -/
theorem mapKernel_exit {m m' : Mm} {k fuel : Nat} (ahead : Ahead m k k) (le : k ≤ 4096)
    (exited : mapKernel fuel m (BitVec.ofNat 32 (4096 * k)) = some (.exit m')) : m'.freeAddr.toNat ≤ memSize := by
  induction fuel generalizing m k with
  | zero => cases exited
  | succ fuel ih =>
    have value : (BitVec.ofNat 32 (4096 * k)).toNat = 4096 * k := by
      rw [BitVec.toNat_ofNat]
      omega
    have here : (BitVec.ofNat 32 (4096 * k)).toNat / 0x1000 = k := by omega
    rw [mapKernel] at exited
    split at exited
    · rcases ahead.step here le with ⟨v, done, lt, _, next⟩ | ⟨_, failed⟩
      · have advance : BitVec.ofNat 32 (4096 * k) + 0x1000 = BitVec.ofNat 32 (4096 * (k + 1)) := by
          rw [Nat.mul_succ, BitVec.ofNat_add]
          rfl
        simp only [done, advance] at exited
        exact ih next lt exited
      · simp only [failed] at exited
        cases exited
    · rename_i past
      cases exited
      have high := BitVec.not_lt.mp past
      rw [BitVec.le_def, value] at high
      unfold memSize
      omega

/-- A loop that returns is at its end, or has made a pass that returns. -/
theorem mallocLoop_ok {fuel : Nat} {m m' : Mm} {j stop : Word} (returned : mallocLoop mapPage (fuel + 1) m j stop = some (.ok m')) :
    stop.toNat ≤ j.toNat ∧ m' = m ∨
      j.toNat < stop.toNat ∧ ∃ m1, mapPage m j = .ok m1 ∧ mallocLoop mapPage fuel m1 (j + 0x1000) stop = some (.ok m') := by
  rw [mallocLoop] at returned
  split at returned
  · rename_i more
    cases step : mapPage m j with
    | error t =>
      rw [step] at returned
      cases returned
    | ok m1 =>
      rw [step] at returned
      exact Or.inr ⟨BitVec.lt_def.mp more, m1, rfl, returned⟩
  · rename_i past
    cases returned
    exact Or.inl ⟨BitVec.le_def.mp (BitVec.not_lt.mp past), rfl⟩

/-- The loop of malloc takes a frame for every page up to its end, so it returns only
where there are as many. -/
theorem mallocLoop_frames {fuel p k : Nat} {m m' : Mm} {j stop : Word} (ahead : Ahead m p k) (le : k ≤ 4096)
    (start : j.toNat = 4096 * p) (low : p ≤ 8192 + k) (returned : mallocLoop mapPage fuel m j stop = some (.ok m')) :
    (stop.toNat + 4095) / 4096 - p + k ≤ 4096 := by
  induction fuel generalizing m j p k with
  | zero => cases returned
  | succ fuel ih =>
    rcases mallocLoop_ok returned with ⟨past, _⟩ | ⟨more, m1, step, returned⟩
    · omega
    · obtain ⟨lt, next, _⟩ := mapPage_ok ahead (by omega) le step
      have advance : (j + 0x1000).toNat = 4096 * (p + 1) := by
        rw [add_page_toNat]
        omega
      have rest := ih next lt advance (by omega) returned
      omega

/-- Page tables are apart from each other and below free_addr, and the present pages
hold different ones of the first k frames. -/
structure Paged (m : Mm) (k : Nat) : Prop where
  positive : 0 < m.freeAddr.toNat
  aligned : ∀ t, m.tables t ≠ 0 → (m.tables t).toNat % 4096 = 0
  placed : ∀ t, m.tables t ≠ 0 → (m.tables t).toNat + 4096 ≤ m.freeAddr.toNat
  distinct : ∀ s t, m.tables s ≠ 0 → m.tables s = m.tables t → s = t
  exclusive : Exclusive m.held
  covered : Covered m.held (· < k)

/-- What malloc keeps: allocations stay where they are, new tables come from the free
memory, and the entries of present pages do not change. -/
structure Grown (m m' : Mm) : Prop where
  free : m.freeAddr.toNat ≤ m'.freeAddr.toNat
  framesAddr : m'.framesAddr = m.framesAddr
  kernelDir : m'.kernelDir = m.kernelDir
  tables : ∀ t, m.tables t ≠ 0 → m'.tables t = m.tables t
  new : ∀ t, m.tables t = 0 → m'.tables t ≠ 0 → m.freeAddr.toNat ≤ (m'.tables t).toNat
  entries : ∀ p e, m.entry p = some e → e.present = 1 → m'.entry p = some e

namespace Grown

variable {m m' m'' : Mm}

theorem refl (m : Mm) : Grown m m where
  free := Nat.le_refl _
  framesAddr := rfl
  kernelDir := rfl
  tables _ _ := rfl
  new _ none made := absurd none made
  entries _ _ entry _ := entry

theorem trans (first : Grown m m') (second : Grown m' m'') : Grown m m'' where
  free := Nat.le_trans first.free second.free
  framesAddr := second.framesAddr.trans first.framesAddr
  kernelDir := second.kernelDir.trans first.kernelDir
  tables t made := by
    have before := first.tables t made
    exact (second.tables t (before ▸ made)).trans before
  new t none made := by
    by_cases between : m'.tables t = 0
    · exact Nat.le_trans first.free (second.new t between made)
    · rw [second.tables t between]
      exact first.new t none between
  entries p e entry here := second.entries p e (first.entries p e entry here) here

theorem present (grown : Grown m m') {p : Nat} (here : m.Present p) : m'.Present p := by
  obtain ⟨e, entry, present⟩ := here
  exact ⟨e, grown.entries p e entry present, present⟩

end Grown

section Steps

variable {m : Mm} {k : Nat} (paged : Paged m k)
include paged

theorem Paged.entry_toNat {t j : Nat} (made : m.tables t ≠ 0) (hj : j < 1024) :
    (entryAddr (m.tables t) j).toNat = (m.tables t).toNat + 4 * j := by
  have placed := paged.placed t made
  have small := m.freeAddr.isLt
  rw [entryAddr, BitVec.toNat_add, BitVec.toNat_ofNat]
  omega

theorem Paged.entry_nonzero {t j : Nat} (made : m.tables t ≠ 0) (hj : j < 1024) : entryAddr (m.tables t) j ≠ 0 := by
  intro null
  have value := paged.entry_toNat made hj
  rw [null] at value
  have zero : (0 : Word).toNat = 0 := rfl
  exact made (BitVec.eq_of_toNat_eq (by omega))

/-- Two pages have their entries at different addresses. -/
theorem Paged.entry_ne {p q : Nat} (madeP : m.tables (p / 1024) ≠ 0) (madeQ : m.tables (q / 1024) ≠ 0)
    (other : p ≠ q) :
    entryAddr (m.tables (p / 1024)) (p % 1024) ≠ entryAddr (m.tables (q / 1024)) (q % 1024) := by
  intro same
  have values := congrArg BitVec.toNat same
  rw [paged.entry_toNat madeP (Nat.mod_lt _ (by decide)), paged.entry_toNat madeQ (Nat.mod_lt _ (by decide))] at values
  have alignedP := paged.aligned _ madeP
  have alignedQ := paged.aligned _ madeQ
  have tables : m.tables (p / 1024) = m.tables (q / 1024) := BitVec.eq_of_toNat_eq (by omega)
  have index := paged.distinct _ _ madeP tables
  rw [tables] at values
  omega

omit paged in
theorem alignFree_next (fits : 4096 * m.nextPage < 4294967296) :
    (alignFree m.freeAddr 1).toNat = 4096 * m.nextPage := by
  unfold Mm.nextPage at fits ⊢
  rw [Nat.mul_comm]
  by_cases room : m.freeAddr.toNat + 4095 < 4294967296
  · exact alignFree_one room
  · omega

omit paged in
theorem nextPage_bounds (m : Mm) : m.freeAddr.toNat ≤ 4096 * m.nextPage ∧ 4096 * m.nextPage < m.freeAddr.toNat + 4096 := by
  unfold Mm.nextPage
  omega

section Make

variable {t : Nat} (fits : 4096 * m.nextPage + 4096 < 4294967296)
include fits

omit paged in
theorem makeTable_next (t : Nat) : (makeTable m t).freeAddr.toNat = 4096 * m.nextPage + 4096 := by
  have value := alignFree_next (m := m) (by omega)
  rw [makeTable_free t (by omega), value]

theorem Paged.new_nonzero : alignFree m.freeAddr 1 ≠ 0 := by
  have next := nextPage_bounds m
  exact alignFree_nonzero paged.positive (by unfold Mm.nextPage at fits; omega)

/- The tables that are there lie below the new one. -/
theorem Paged.new_ne {s : Nat} (here : m.tables s ≠ 0) : m.tables s ≠ alignFree m.freeAddr 1 := by
  intro same
  have values := congrArg BitVec.toNat same
  have placed := paged.placed s here
  have next := nextPage_bounds m
  rw [alignFree_next (by omega)] at values
  omega

theorem Paged.make_entry {p : Nat} (other : p / 1024 ≠ t) : (makeTable m t).entry p = m.entry p := by
  unfold Mm.entry
  rw [makeTable_old m other]
  by_cases here : m.tables (p / 1024) = 0
  · rw [if_pos here, if_pos here]
  · have placed := paged.placed _ here
    have next := nextPage_bounds m
    have value := alignFree_next (m := m) (by omega)
    rw [if_neg here, if_neg here]
    refine congrArg some (clearTable_below ?_ (by omega))
    rw [paged.entry_toNat here (Nat.mod_lt _ (by decide))]
    omega

theorem Paged.make_held (none : m.tables t = 0) : (makeTable m t).held = m.held := by
  funext p
  unfold Mm.held
  by_cases same : p / 1024 = t
  · have before : m.entry p = Option.none := if_pos (same ▸ none)
    have made : (makeTable m t).tables (p / 1024) ≠ 0 := by
      rw [same, makeTable_new]
      exact paged.new_nonzero fits
    rw [before, Mm.entry_of_made made, same, makeTable_new]
    change (Option.some (clearTable m.pages _ _)).bind _ = _
    rw [clearTable_self _ _ (Nat.mod_lt _ (by decide))]
    rfl
  · rw [paged.make_entry fits same]

theorem Paged.make_paged (none : m.tables t = 0) : Paged (makeTable m t) k where
  positive := by
    have next := makeTable_next fits t
    omega
  aligned s here := by
    by_cases new : s = t
    · rw [new, makeTable_new, alignFree_next (by omega)]
      omega
    · rw [makeTable_old m new] at here ⊢
      exact paged.aligned s here
  placed s here := by
    rw [makeTable_next fits]
    by_cases new : s = t
    · have value := alignFree_next (m := m) (by omega)
      rw [new, makeTable_new]
      omega
    · rw [makeTable_old m new] at here ⊢
      have placed := paged.placed s here
      have next := nextPage_bounds m
      omega
  distinct s s' here same := by
    by_cases new : s = t
    · by_cases new' : s' = t
      · exact new.trans new'.symm
      · rw [new, makeTable_new, makeTable_old m new'] at same
        exact absurd same.symm (paged.new_ne fits (same ▸ paged.new_nonzero fits))
    · rw [makeTable_old m new] at here same
      by_cases new' : s' = t
      · rw [new', makeTable_new] at same
        exact absurd same (paged.new_ne fits here)
      · rw [makeTable_old m new'] at same
        exact paged.distinct s s' here same
  exclusive := paged.make_held fits none ▸ paged.exclusive
  covered := paged.make_held fits none ▸ paged.covered

theorem Paged.make_grown (none : m.tables t = 0) : Grown m (makeTable m t) where
  free := by
    have next := nextPage_bounds m
    rw [makeTable_next fits]
    omega
  framesAddr := rfl
  kernelDir := rfl
  tables s here := makeTable_old m (fun same => here (same ▸ none))
  new s before here := by
    have next := nextPage_bounds m
    by_cases new : s = t
    · rw [new, makeTable_new, alignFree_next (by omega)]
      exact next.1
    · rw [makeTable_old m new] at here
      exact absurd before here
  entries p e entry _ := by
    have other : p / 1024 ≠ t := fun same => (Mm.made_of_entry entry).1 (same ▸ none)
    rw [paged.make_entry fits other]
    exact entry

/-- A new table takes the next page of the free memory, and maps nothing. -/
theorem Paged.make (none : m.tables t = 0) :
    Paged (makeTable m t) k ∧ Grown m (makeTable m t) ∧ (makeTable m t).tables t ≠ 0 ∧
      (makeTable m t).nextPage = m.nextPage + 1 ∧ (makeTable m t).held = m.held := by
  refine ⟨paged.make_paged fits none, paged.make_grown fits none, ?_, ?_, paged.make_held fits none⟩
  · rw [makeTable_new]
    exact paged.new_nonzero fits
  · rw [Mm.nextPage, makeTable_next fits]
    omega

end Make

/-- Page p gets frame k; the other entries stay. -/
theorem Paged.map {p : Nat} {v : Vmm Word} (made : m.tables (p / 1024) ≠ 0)
    (absent : (m.pages (entryAddr (m.tables (p / 1024)) (p % 1024))).present ≠ 1)
    (allocated : Allocated m.toVmm (entryAddr (m.tables (p / 1024)) (p % 1024)) k v) :
    Paged { m with toVmm := v } (k + 1) ∧ Grown m { m with toVmm := v } ∧
      Mm.Present { m with toVmm := v } p := by
  have here : Mm.entry { m with toVmm := v } p = some (v.pages (entryAddr (m.tables (p / 1024)) (p % 1024))) :=
    if_neg made
  have others : ∀ q, q ≠ p → Mm.entry { m with toVmm := v } q = m.entry q := by
    intro q other
    unfold Mm.entry
    by_cases madeQ : m.tables (q / 1024) = 0
    · rw [if_pos madeQ, if_pos madeQ]
    · rw [if_neg madeQ, if_neg madeQ]
      exact congrArg some (allocated.others _ (paged.entry_ne madeQ made other))
  have held : Mm.held { m with toVmm := v } = assign m.held p k := by
    funext q
    by_cases same : q = p
    · rw [same, assign, Function.update_self]
      exact Mm.held_eq_some.mpr ⟨_, here, allocated.present, allocated.frame⟩
    · rw [assign, Function.update_of_ne same, Mm.held, Mm.held, others q same]
  refine ⟨⟨paged.positive, paged.aligned, paged.placed, paged.distinct, ?_, ?_⟩,
    ⟨Nat.le_refl _, rfl, rfl, fun _ _ => rfl, fun _ none made => absurd none made, fun q e entry present => ?_⟩,
    ⟨_, here, allocated.present⟩⟩
  · rw [held]
    exact paged.exclusive.assign paged.covered p (Nat.lt_irrefl k)
  · rw [held]
    exact paged.covered.assign p (fun f => by omega)
  · by_cases same : q = p
    · subst q
      rw [Mm.entry_of_made made] at entry
      cases Option.some.inj entry
      exact absurd present absent
    · rw [others q same]
      exact entry

end Steps

/-- The state after a pass over page p, where k frames were taken before. -/
structure Passed (m : Mm) (p k : Nat) (m' : Mm) : Prop where
  paged : Paged m' (k + 1)
  ahead : Ahead m' (p + 1) (k + 1)
  grown : Grown m m'
  present : m'.Present p
  room : m'.nextPage ≤ m.nextPage + 1

theorem mapPage_passed {m m' : Mm} {p k : Nat} {j : Word} (paged : Paged m k) (ahead : Ahead m p k)
    (here : j.toNat / 0x1000 = p) (le : k ≤ 4096) (fits : 4096 * m.nextPage + 4096 < 4294967296)
    (returned : mapPage m j = .ok m') : k < 4096 ∧ Passed m p k m' := by
  obtain ⟨lt, next, v, rfl, allocated⟩ := mapPage_ok ahead here le returned
  have get := ahead.get here
  refine ⟨lt, ?_⟩
  by_cases made : m.tables (p / 1024) = 0
  · rw [getPage_make here made] at next allocated get ⊢
    obtain ⟨pagedM, grownM, madeM, page, _⟩ := paged.make fits made
    obtain ⟨paged', grown', present⟩ := pagedM.map madeM get.2.2 allocated
    exact ⟨paged', next, grownM.trans grown', present, Nat.le_of_eq page⟩
  · rw [getPage_made here made] at next allocated get ⊢
    obtain ⟨paged', grown', present⟩ := paged.map made get.2.2 allocated
    exact ⟨paged', next, grown', present, Nat.le_succ _⟩

/-- The loop over the r pages from p on. -/
structure Mapped (m : Mm) (p k r : Nat) (m' : Mm) : Prop where
  paged : Paged m' (k + r)
  ahead : Ahead m' (p + r) (k + r)
  grown : Grown m m'
  present : ∀ q, p ≤ q → q < p + r → m'.Present q
  room : m'.nextPage ≤ 2 * (k + r)

theorem mallocLoop_mapped {fuel p k r : Nat} {m m' : Mm} {j stop : Word} (paged : Paged m k) (ahead : Ahead m p k)
    (start : j.toNat = 4096 * p) (last : (stop.toNat + 4095) / 4096 = p + r) (low : p + r ≤ 12288)
    (room : m.nextPage ≤ 2 * k + r) (frames : k + r ≤ 4096)
    (returned : mallocLoop mapPage fuel m j stop = some (.ok m')) : Mapped m p k r m' := by
  induction fuel generalizing m j p k r with
  | zero => cases returned
  | succ fuel ih =>
    rcases mallocLoop_ok returned with ⟨past, rfl⟩ | ⟨more, m1, step, returned⟩
    · have none : r = 0 := by omega
      subst none
      exact ⟨paged, ahead, .refl _, fun q low high => absurd high (by omega), by omega⟩
    · obtain ⟨r, rfl⟩ : ∃ r', r = r' + 1 := ⟨r - 1, by omega⟩
      obtain ⟨lt, passed⟩ := mapPage_passed paged ahead (by omega) (by omega) (by omega) step
      have advance : (j + 0x1000).toNat = 4096 * (p + 1) := by
        rw [add_page_toNat]
        omega
      have space := passed.room
      have last' : (stop.toNat + 4095) / 4096 = p + 1 + r := by omega
      have rest := ih passed.paged passed.ahead advance last' (by omega) (by omega) (by omega) returned
      have index : p + 1 + r = p + (r + 1) := by omega
      have count : k + 1 + r = k + (r + 1) := by omega
      obtain ⟨paged', ahead', grown', present', room'⟩ := rest
      rw [index, count] at ahead'
      rw [count] at paged' room'
      refine ⟨paged', ahead', passed.grown.trans grown', fun q low high => ?_, room'⟩
      by_cases first : q = p
      · exact first ▸ grown'.present passed.present
      · exact present' q (by omega) (by omega)

/-- A pass returns where there is a frame left: no entry is at address 0. -/
theorem mapPage_returns {m : Mm} {p k : Nat} {j : Word} (paged : Paged m k) (ahead : Ahead m p k)
    (here : j.toNat / 0x1000 = p) (lt : k < 4096) (fits : 4096 * m.nextPage + 4096 < 4294967296) :
    ∃ m', mapPage m j = .ok m' := by
  have zero := WordBits.bit_zero (ahead.get here).2.2
  have entry : (getPage m j 1).1 ≠ 0 := by
    have index : p % 1024 < 1024 := Nat.mod_lt _ (by decide)
    by_cases made : m.tables (p / 1024) = 0
    · obtain ⟨paged', _, made', _⟩ := paged.make fits made
      rw [getPage_make here made]
      exact paged'.entry_nonzero made' index
    · rw [getPage_made here made]
      exact paged.entry_nonzero made index
  rcases ahead.step here (Nat.le_of_lt lt) with ⟨v, done, _⟩ | ⟨full, _⟩
  · exact ⟨_, by simp only [mapPage, zero, if_true, if_neg entry, done]; rfl⟩
  · omega

theorem mallocLoop_returns {fuel p k r : Nat} {m : Mm} {j stop : Word} (paged : Paged m k) (ahead : Ahead m p k)
    (start : j.toNat = 4096 * p) (last : (stop.toNat + 4095) / 4096 = p + r) (low : p + r ≤ 12288)
    (room : m.nextPage ≤ 2 * k + r) (frames : k + r ≤ 4096) (enough : r < fuel) :
    ∃ m', mallocLoop mapPage fuel m j stop = some (.ok m') := by
  induction fuel generalizing m j p k r with
  | zero => exact absurd enough (Nat.not_lt_zero r)
  | succ fuel ih =>
    rw [mallocLoop]
    by_cases more : j < stop
    · have less := BitVec.lt_def.mp more
      obtain ⟨r, rfl⟩ : ∃ r', r = r' + 1 := ⟨r - 1, by omega⟩
      obtain ⟨m1, step⟩ := mapPage_returns paged ahead (by omega : j.toNat / 0x1000 = p) (by omega) (by omega)
      obtain ⟨_, passed⟩ := mapPage_passed paged ahead (by omega) (by omega) (by omega) step
      have advance : (j + 0x1000).toNat = 4096 * (p + 1) := by
        rw [add_page_toNat]
        omega
      have space := passed.room
      have last' : (stop.toNat + 4095) / 4096 = p + 1 + r := by omega
      rw [if_pos more, step]
      exact ih passed.paged passed.ahead advance last' (by omega) (by omega) (by omega) (by omega)
    · exact ⟨m, if_neg more⟩

/-- The invariant of calls of malloc, from a state start on: the next page to be mapped
is the one after free_addr, and no call has wrapped. -/
structure HeapOk (start : Mm) (h : Heap) (k : Nat) : Prop where
  le : k ≤ 4096
  paged : Paged h.mm k
  ahead : Ahead h.mm h.mm.nextPage k
  room : h.mm.nextPage ≤ 2 * k
  grown : Grown start h.mm
  aligned : ∀ b ∈ h.blocks, b.addr.toNat % 4096 = 0
  inside : ∀ b ∈ h.blocks, start.freeAddr.toNat ≤ b.addr.toNat ∧ b.addr.toNat + b.size.toNat ≤ h.mm.freeAddr.toNat
  disjoint : h.blocks.Pairwise fun b c => ∀ a, ¬ (b.Has a ∧ c.Has a)
  apart : ∀ b ∈ h.blocks, ∀ t, h.mm.tables t ≠ 0 →
    (h.mm.tables t).toNat + 4096 ≤ b.addr.toNat ∨ b.addr.toNat + b.size.toNat ≤ (h.mm.tables t).toNat
  present : ∀ b ∈ h.blocks, ∀ a, b.Has a → h.mm.Present (a / 4096)

theorem mallocCall_ok {fuel : Nat} {h h' : Heap} {size : Word} (returned : mallocCall fuel h size = .ok h') :
    h'.blocks = ⟨alignFree h.mm.freeAddr 1, size⟩ :: h.blocks ∧
      mallocLoop mapPage fuel (kmalloc h.mm size 1).2 (alignFree h.mm.freeAddr 1) (size + alignFree h.mm.freeAddr 1) =
        some (.ok h'.mm) := by
  unfold mallocCall malloc at returned
  simp only [kmalloc] at returned ⊢
  generalize mallocLoop mapPage fuel _ _ _ = ended at returned ⊢
  rcases ended with _ | ⟨_ | m⟩
  · cases returned
  · cases returned
  · cases returned
    exact ⟨rfl, rfl⟩

/-- What kmalloc does for malloc: it moves free_addr and touches nothing. -/
structure Bumped (m : Mm) (size : Word) (m' : Mm) : Prop where
  addr : (alignFree m.freeAddr 1).toNat = 4096 * m.nextPage
  free : m'.freeAddr.toNat = 4096 * m.nextPage + size.toNat
  above : m.freeAddr.toNat ≤ 4096 * m.nextPage
  stop : (size + alignFree m.freeAddr 1).toNat = 4096 * m.nextPage + size.toNat
  next : m'.nextPage = m.nextPage + (size.toNat + 4095) / 4096

/-- malloc maps up to here. -/
theorem Bumped.last {m m' : Mm} {size : Word} (bumped : Bumped m size m') :
    ((size + alignFree m.freeAddr 1).toNat + 4095) / 4096 = m.nextPage + (size.toNat + 4095) / 4096 := by
  rw [bumped.stop]
  omega

theorem kmalloc_ahead {m : Mm} {p k : Nat} (size : Word) (ahead : Ahead m p k) : Ahead (kmalloc m size 1).2 p k :=
  ⟨ahead.nframes, ahead.bits, ahead.later, ahead.absent⟩

section Call

variable {m : Mm} {size : Word} (fits : 4096 * m.nextPage + size.toNat < 4294967296)
include fits

theorem kmalloc_bumped : Bumped m size (kmalloc m size 1).2 := by
  have addr := alignFree_next (m := m) (by omega)
  have free : ((kmalloc m size 1).2.freeAddr).toNat = 4096 * m.nextPage + size.toNat := by
    change (alignFree m.freeAddr 1 + size).toNat = _
    rw [BitVec.toNat_add, addr]
    omega
  refine ⟨addr, free, ?_, ?_, ?_⟩
  · unfold Mm.nextPage
    omega
  · rw [BitVec.toNat_add, addr]
    omega
  · rw [Mm.nextPage, free]
    omega

theorem kmalloc_paged {k : Nat} (paged : Paged m k) :
    Paged (kmalloc m size 1).2 k ∧ Grown m (kmalloc m size 1).2 := by
  have bumped := kmalloc_bumped fits
  have free := bumped.free
  have above := bumped.above
  have positive := paged.positive
  refine ⟨⟨by omega, paged.aligned, fun t made => ?_, paged.distinct, paged.exclusive, paged.covered⟩,
    ⟨by omega, rfl, rfl, fun _ _ => rfl, fun _ none made => absurd none made, fun _ _ entry _ => entry⟩⟩
  exact Nat.le_trans (paged.placed t made) (by omega)

end Call

/-- A block from the free memory, with new tables behind it, joins the others. -/
theorem HeapOk.push {start m' : Mm} {h : Heap} {k k' : Nat} {b : Block} (ok : HeapOk start h k) (le : k' ≤ 4096)
    (paged : Paged m' k') (ahead : Ahead m' m'.nextPage k') (room : m'.nextPage ≤ 2 * k') (grown : Grown h.mm m')
    (aligned : b.addr.toNat % 4096 = 0)
    (inside : h.mm.freeAddr.toNat ≤ b.addr.toNat ∧ b.addr.toNat + b.size.toNat ≤ m'.freeAddr.toNat)
    (behind : ∀ t, h.mm.tables t = 0 → m'.tables t ≠ 0 → b.addr.toNat + b.size.toNat ≤ (m'.tables t).toNat)
    (present : ∀ a, b.Has a → m'.Present (a / 4096)) : HeapOk start ⟨m', b :: h.blocks⟩ k' where
  le := le
  paged := paged
  ahead := ahead
  room := room
  grown := ok.grown.trans grown
  aligned c mem := by
    rcases List.mem_cons.mp mem with rfl | old
    · exact aligned
    · exact ok.aligned c old
  inside c mem := by
    have oldest := ok.grown.free
    have later := grown.free
    rcases List.mem_cons.mp mem with rfl | old
    · exact ⟨Nat.le_trans oldest inside.1, inside.2⟩
    · have here := ok.inside c old
      exact ⟨here.1, Nat.le_trans here.2 later⟩
  disjoint := by
    refine List.pairwise_cons.mpr ⟨fun c old a both => ?_, ok.disjoint⟩
    have here := ok.inside c old
    have low := both.1.1
    have high := both.2.2
    omega
  apart c mem t made := by
    dsimp only at made ⊢
    by_cases before : h.mm.tables t = 0
    · have fresh := behind t before made
      rcases List.mem_cons.mp mem with rfl | old
      · exact .inr fresh
      · have here := ok.inside c old
        omega
    · have placed := ok.paged.placed t before
      rw [grown.tables t before]
      rcases List.mem_cons.mp mem with rfl | old
      · exact .inl (Nat.le_trans placed inside.1)
      · exact ok.apart c old t before
  present c mem a has := by
    rcases List.mem_cons.mp mem with rfl | old
    · exact present a has
    · exact grown.present (ok.present c old a has)

/-- A call that returns keeps the invariant, and takes a frame for each page of its block. -/
theorem HeapOk.call {start : Mm} {h h' : Heap} {k fuel : Nat} {size : Word} (ok : HeapOk start h k)
    (unwrapped : Unwrapped h size) (returned : mallocCall fuel h size = .ok h') :
    HeapOk start h' (k + (size.toNat + 4095) / 4096) ∧ Grown h.mm h'.mm := by
  obtain ⟨blocks, loop⟩ := mallocCall_ok returned
  have bumped := kmalloc_bumped unwrapped
  obtain ⟨paged, grown⟩ := kmalloc_paged unwrapped ok.paged
  have addr := bumped.addr
  have free := bumped.free
  have above := bumped.above
  have stop := bumped.stop
  have next := bumped.next
  have le := ok.le
  have room := ok.room
  have ahead := kmalloc_ahead size ok.ahead
  have frames := mallocLoop_frames ahead le addr (by omega) loop
  have last := bumped.last
  have mapped := mallocLoop_mapped paged ahead addr last (by omega) (by omega) (by omega) loop
  generalize (size.toNat + 4095) / 4096 = r at mapped next last frames
  have after := mapped.grown.free
  have later : h.mm.nextPage + r ≤ h'.mm.nextPage := by
    rw [← next]
    unfold Mm.nextPage
    omega
  have whole := grown.trans mapped.grown
  refine ⟨?_, whole⟩
  have heap : h' = ⟨h'.mm, ⟨alignFree h.mm.freeAddr 1, size⟩ :: h.blocks⟩ := by rw [← blocks]
  rw [heap]
  apply ok.push (by omega) mapped.paged (mapped.ahead.mono later) mapped.room whole
  · dsimp only
    omega
  · dsimp only
    omega
  · intro t before made
    have fresh := mapped.grown.new t before made
    dsimp only
    omega
  · intro a has
    have low := has.1
    have high := has.2
    dsimp only at low high
    exact mapped.present _ (by omega) (by omega)

/-- A call returns when there are frames for the pages of its block. -/
theorem HeapOk.returns {start : Mm} {h : Heap} {k fuel : Nat} {size : Word} (ok : HeapOk start h k)
    (unwrapped : Unwrapped h size) (frames : k + (size.toNat + 4095) / 4096 ≤ 4096)
    (enough : (size.toNat + 4095) / 4096 < fuel) : ∃ h', mallocCall fuel h size = .ok h' := by
  have bumped := kmalloc_bumped unwrapped
  obtain ⟨paged, _⟩ := kmalloc_paged unwrapped ok.paged
  have room := ok.room
  have next := bumped.next
  have last := bumped.last
  have ahead := kmalloc_ahead size ok.ahead
  obtain ⟨m', loop⟩ := mallocLoop_returns paged ahead bumped.addr last (by omega) (by omega) frames enough
  refine ⟨⟨m', ⟨alignFree h.mm.freeAddr 1, size⟩ :: h.blocks⟩, ?_⟩
  unfold mallocCall malloc
  simp only [kmalloc] at loop ⊢
  rw [loop]
  rfl

/-- The state that init_paging leaves, with k pages mapped to themselves. -/
structure Started (boot start : Mm) (k : Nat) : Prop where
  ok : HeapOk start ⟨start, []⟩ k
  held : ∀ p f, start.held p = some f ↔ p < k ∧ f = p
  made : ∀ t, start.tables t ≠ 0 ↔ t < (k + 1023) / 1024
  caught : start.freeAddr.toNat ≤ 4096 * k
  identity : IdentityMapped boot start

theorem initTables_ahead {boot : Mm} (clear : ∀ w, 32 ≤ w → w < 128 → boot.frames w = 0) :
    Ahead (initTables boot) 0 0 :=
  ⟨rfl, fun _ hf => initTables_bits clear hf, fun _ _ => rfl, fun _ _ _ made => absurd rfl made⟩

section Mapped

variable {boot m : Mm} {k : Nat} (inv : Lockstep boot k ((k + 1023) / 1024) m)
include inv

/- The pages that the loop of init_paging has mapped to themselves. -/
theorem Lockstep.held_iff {p f : Nat} : m.held p = some f ↔ p < k ∧ f = p := by
  rw [Mm.held_eq_some]
  constructor
  · rintro ⟨e, entry, here, rfl⟩
    have lt := (inv.present_iff (by omega) p).mp ⟨e, entry, here⟩
    rw [inv.entry_some (by omega) lt] at entry
    cases Option.some.inj entry
    exact ⟨lt, inv.frame p lt⟩
  · rintro ⟨lt, rfl⟩
    exact ⟨_, inv.entry_some (by omega) lt, (inv.present f (by omega)).mpr lt, inv.frame f lt⟩

theorem Lockstep.paged : Paged m k where
  positive := by
    have directory := inv.directory
    omega
  aligned t made := inv.aligned t ((inv.made t).mp made)
  placed t made := (inv.placed t ((inv.made t).mp made)).2
  distinct s t made same := inv.distinct s ((inv.made s).mp made) t ((inv.made t).mp (same ▸ made)) same
  exclusive p q f heldP heldQ := (inv.held_iff.mp heldP).2.symm.trans (inv.held_iff.mp heldQ).2
  covered p f held := by
    obtain ⟨lt, rfl⟩ := inv.held_iff.mp held
    exact lt

theorem Lockstep.ahead : Ahead m k k where
  nframes := inv.nframes
  bits := inv.bits
  later t later := by
    by_contra made
    have lt := (inv.made t).mp made
    omega
  absent j hj low made here := by
    have lt := (inv.made _).mp made
    have entry := inv.present (1024 * (k / 1024) + j) (by omega)
    have index : (1024 * (k / 1024) + j) / 1024 = k / 1024 := by omega
    have rem : (1024 * (k / 1024) + j) % 1024 = j := by omega
    rw [index, rem] at entry
    have less := entry.mp here
    omega

theorem Lockstep.nextPage (caught : m.freeAddr.toNat ≤ 4096 * k) : m.nextPage = k := by
  have directory := inv.directory
  unfold Mm.nextPage
  by_cases none : k = 0
  · omega
  · have below := inv.below (k - 1) (by omega)
    omega

theorem Lockstep.started (le : k ≤ 4096) (caught : m.freeAddr.toNat ≤ 4096 * k) : Started boot m k := by
  have next := inv.nextPage caught
  have none : ∀ b : Block, b ∉ (⟨m, []⟩ : Heap).blocks := fun _ => List.not_mem_nil
  have ok : HeapOk m ⟨m, []⟩ k :=
    { le := le, paged := inv.paged, ahead := next.symm ▸ inv.ahead, room := by dsimp only; omega, grown := .refl m,
      aligned := fun b mem => absurd mem (none b), inside := fun b mem => absurd mem (none b), disjoint := .nil,
      apart := fun b mem => absurd mem (none b), present := fun b mem => absurd mem (none b) }
  exact ⟨ok, fun _ _ => inv.held_iff, inv.made, caught, inv.identity (by omega) caught⟩

end Mapped

theorem init_paging_inside {boot start : Mm} {fuel : Nat} (clear : ∀ w, 32 ≤ w → w < 128 → boot.frames w = 0)
    (exited : initPaging fuel boot = some (.exit start)) : start.freeAddr.toNat ≤ memSize :=
  mapKernel_exit (initTables_ahead clear) (by decide) exited

theorem init_paging_started {boot start : Mm} {fuel : Nat} (low : boot.freeAddr.toNat ≤ memSize)
    (clear : ∀ w, 32 ≤ w → w < 128 → boot.frames w = 0) (exited : initPaging fuel boot = some (.exit start)) :
    ∃ k, Started boot start k := by
  have inside := init_paging_inside clear exited
  obtain ⟨e, ended, outcome⟩ := mapKernel_ends (Nat.zero_le _) (by decide : 4097 ≤ 0 + 4097)
    (initTables_lockstep low clear)
  have same : e = .exit start := by
    have first := mapKernel_more (Nat.le_max_left fuel 4097) exited
    have second := mapKernel_more (Nat.le_max_right fuel 4097) ended
    exact Option.some.inj (second.symm.trans first)
  subst same
  rcases outcome with ⟨outside, -⟩ | ⟨m, same, k, le, inv, caught⟩
  · exact absurd inside (Nat.not_le_of_lt outside)
  · cases same
    exact ⟨k, inv.started le caught⟩

/- What kmalloc has handed out itself. -/
def Mm.Reserved (m : Mm) (a : Nat) : Prop :=
  (m.framesAddr.toNat ≤ a ∧ a < m.framesAddr.toNat + 128) ∨
  (m.kernelDir.toNat ≤ a ∧ a < m.kernelDir.toNat + 8196) ∨
  ∃ t, m.tables t ≠ 0 ∧ (m.tables t).toNat ≤ a ∧ a < (m.tables t).toNat + pageSize

/-- The blocks of malloc are aligned, mapped, and apart from each other and from what
was handed out before; present pages do not share frames. -/
structure BlocksOk (start : Mm) (h : Heap) : Prop where
  aligned : ∀ b ∈ h.blocks, b.addr.toNat % pageSize = 0
  disjoint : h.blocks.Pairwise fun b c => ∀ a, ¬ (b.Has a ∧ c.Has a)
  apart : ∀ b ∈ h.blocks, ∀ a, b.Has a → start.freeAddr.toNat ≤ a ∧ ¬ h.mm.Reserved a
  present : ∀ b ∈ h.blocks, ∀ a, b.Has a → h.mm.Present (a / pageSize)
  frames : ∀ p q e e', h.mm.entry p = some e → e.present = 1 → h.mm.entry q = some e' → e'.present = 1 →
    e.frame = e'.frame → p = q

theorem HeapOk.blocksOk {boot start : Mm} {h : Heap} {k : Nat} (ok : HeapOk start h k)
    (identity : IdentityMapped boot start) : BlocksOk start h where
  aligned := ok.aligned
  disjoint := ok.disjoint
  apart b mem a has := by
    have inside := ok.inside b mem
    have low := has.1
    have high := has.2
    have bitmap := identity.bitmap
    have directory := identity.directory
    refine ⟨by omega, ?_⟩
    rintro (⟨_, below⟩ | ⟨_, below⟩ | ⟨t, made, above, below⟩)
    · rw [ok.grown.framesAddr] at below
      omega
    · rw [ok.grown.kernelDir] at below
      omega
    · have apart := ok.apart b mem t made
      unfold pageSize at below
      omega
  present := ok.present
  frames p q e e' entry here entry' here' same :=
    ok.paged.exclusive p q e.frame.toNat (Mm.held_eq_some.mpr ⟨e, entry, here, rfl⟩)
      (Mm.held_eq_some.mpr ⟨e', entry', here', congrArg BitVec.toNat same.symm⟩)

theorem mallocs_ok {start : Mm} {h h' : Heap} {fuel k : Nat} {sizes : List Word} (ok : HeapOk start h k)
    (run : Run (mallocCall fuel) Unwrapped h sizes h') : ∃ k', HeapOk start h' k' :=
  run.invariant (fun h => ∃ k, HeapOk start h k)
    (fun _ _ _ ⟨_, ok⟩ unwrapped returned => ⟨_, (ok.call unwrapped returned).1⟩) ⟨k, ok⟩

/-- After init_paging every run of malloc calls that return, and whose sums do not pass
2^32, keeps its blocks apart and mapped, and one more call changes no present page. -/
theorem malloc_blocks {boot start : Mm} {fuel fuel' : Nat} {sizes : List Word} {h : Heap}
    (clear : ∀ w, 32 ≤ w → w < 128 → boot.frames w = 0) (exited : initPaging fuel boot = some (.exit start))
    (grew : boot.freeAddr.toNat ≤ start.freeAddr.toNat)
    (run : Run (mallocCall fuel') Unwrapped ⟨start, []⟩ sizes h) :
    BlocksOk start h ∧ ∀ size h', Unwrapped h size → mallocCall fuel' h size = .ok h' →
      ∀ p e, h.mm.entry p = some e → e.present = 1 → h'.mm.entry p = some e := by
  obtain ⟨k, started⟩ := init_paging_started (Nat.le_trans grew (init_paging_inside clear exited)) clear exited
  obtain ⟨k', ok'⟩ := mallocs_ok started.ok run
  refine ⟨ok'.blocksOk started.identity, fun size h' unwrapped returned => ?_⟩
  exact (ok'.call unwrapped returned).2.entries

instance (h : Heap) (size : Word) : Decidable (Unwrapped h size) :=
  inferInstanceAs (Decidable (4096 * h.mm.nextPage + size.toNat < 4294967296))

theorem malloc_blocks_small : ∃ start h, initPaging 4097 (bootMm 0x1000) = some (.exit start) ∧
    Run (mallocCall 8) Unwrapped ⟨start, []⟩ [5000, 0, 4096] h ∧ BlocksOk start h := by
  have check : ((initPaging 4097 (bootMm 0x1000)).bind Ending.exited).any (fun start =>
      decide ((bootMm 0x1000).freeAddr.toNat ≤ start.freeAddr.toNat) &&
      (([5000, 0, 4096] : List Word).foldlM (guarded (mallocCall 8) (fun h size => decide (Unwrapped h size)))
        ⟨start, []⟩).isSome) = true := by decide +kernel
  obtain ⟨start, exited, check⟩ := (Option.any_eq_true _ _).mp check
  obtain ⟨e, ended, exits⟩ := Option.bind_eq_some_iff.mp exited
  rw [Bool.and_eq_true, decide_eq_true_eq, Option.isSome_iff_exists] at check
  obtain ⟨grew, h, done⟩ := check
  cases e with
  | trap => cases exits
  | exit m =>
    cases Option.some.inj exits
    have met : ∀ h size, decide (Unwrapped h size) = true → Unwrapped h size := fun _ _ => of_decide_eq_true
    have run := run_of_foldlM met done
    exact ⟨_, h, ended, run, (malloc_blocks (fun _ _ _ => rfl) ended grew run).1⟩

end Icix
