import Icix.Mm.Frames

/-! kmalloc of kernel/arch/i386/pmm.c and init_paging of kernel/arch/i386/vmm.c.
Page entries are named by their addresses; the directory's two arrays, the frame
bitmap and the page tables are separate objects of the memory. -/
namespace Icix
open Bytes

/- The memory manager's variables and what they point to. -/
structure Mm extends Vmm Word where
  freeAddr : Word
  framesAddr : Word
  kernelDir : Word
  tables : Nat → Word
  physTables : Nat → Word

/- The first branch of kmalloc. -/
def alignFree (freeAddr : Word) (align : Int) : Word :=
  if align = 1 ∧ freeAddr &&& 0xFFF#32 ≠ 0 then (freeAddr &&& 0xFFFFF000#32) + 0x1000 else freeAddr

/-- Returns the address, which is also what goes to *physical. -/
def kmalloc (m : Mm) (size : Word) (align : Int) : Word × Mm :=
  let freeAddr := alignFree m.freeAddr align
  (freeAddr, { m with freeAddr := freeAddr + size })

/- &table->pages[j], in a table of 4-byte entries. -/
def entryAddr (table : Word) (j : Nat) : Word := table + BitVec.ofNat 32 (4 * j)

def emptyPage : Page := ⟨0, 0, 0, 0, 0, 0, 0⟩

def clearTable (pages : Word → Page) (table : Word) : Word → Page :=
  fun a => if (a - table).toNat < pageSize then emptyPage else pages a

/- The branch of get_page that makes a table. -/
def makeTable (m : Mm) (t : Nat) : Mm :=
  let (phys, m) := kmalloc m 0x1000 1
  { m with
    tables := Function.update m.tables t phys
    pages := clearTable m.pages phys
    physTables := Function.update m.physTables t (phys ||| 7) }

/-- A null pointer where there is no table and none is to be made. -/
def getPage (m : Mm) (addr make : Word) : Word × Mm :=
  let addr := addr.toNat / 0x1000
  let tableIdx := addr / 1024
  if m.tables tableIdx ≠ 0 then (entryAddr (m.tables tableIdx) (addr % 1024), m)
  else if make ≠ 0 then
    let m := makeTable m tableIdx
    (entryAddr (m.tables tableIdx) (addr % 1024), m)
  else (0, m)

/- How the loop of init_paging ends, and in which state. -/
inductive Ending where
  | exit (m : Mm)
  | trap (t : Trap) (m : Mm)

def Ending.exited : Ending → Option Mm
  | .exit m => some m
  | .trap _ _ => none

def Ending.mm : Ending → Mm
  | .exit m => m
  | .trap _ m => m

/-- The loop of init_paging, which stops where fuel runs out only if it has not
ended by then. -/
def mapKernel : Nat → Mm → Word → Option Ending
  | 0, _, _ => none
  | fuel + 1, m, i =>
    if i < m.freeAddr then
      let (page, m) := getPage m i 1
      match pfaAlloc m.toVmm page 0 0 with
      | .error t => some (.trap t m)
      | .ok v => mapKernel fuel { m with toVmm := v } (i + 0x1000)
    else some (.exit m)

/- What init_paging does before its loop. Only a quarter of the bitmap is cleared. -/
def initTables (m : Mm) : Mm :=
  let nframes := memSize / pageSize
  let size := indexFromBit nframes
  let (framesAddr, m) := kmalloc m (BitVec.ofNat 32 size) 0
  let m := { m with
    nframes := nframes
    framesAddr := framesAddr
    frames := fun w => if 4 * w < size then 0 else m.frames w }
  let (kernelDir, m) := kmalloc m 8196 1
  { m with kernelDir := kernelDir, tables := fun _ => 0, physTables := fun _ => 0 }

def initPaging (fuel : Nat) (m : Mm) : Option Ending := mapKernel fuel (initTables m) 0

/- The entry of kernel_dir for page p, where its table exists. -/
def Mm.entry (m : Mm) (p : Nat) : Option Page :=
  if m.tables (p / 1024) = 0 then none
  else some (m.pages (entryAddr (m.tables (p / 1024)) (p % 1024)))

def Mm.Present (m : Mm) (p : Nat) : Prop := ∃ e, m.entry p = some e ∧ e.present = 1

/- The physical address that kernel_dir maps an address to. -/
def Mm.translate (m : Mm) (a : Word) : Option Nat :=
  (m.entry (a.toNat / pageSize)).bind fun e =>
    if e.present = 1 then some (e.frame.toNat * pageSize + a.toNat % pageSize) else none

/-- The region below freeAddr, and nothing else, is mapped to itself; it has the
bitmap, the directory and every page table, which the directory names. -/
structure IdentityMapped (boot m : Mm) : Prop where
  present : ∀ p < 1048576, m.Present p ↔ p * pageSize < m.freeAddr.toNat
  frame : ∀ p < 1048576, ∀ e, m.entry p = some e → e.present = 1 → e.frame.toNat = p
  mapped : ∀ a : Word, a.toNat < m.freeAddr.toNat → m.translate a = some a.toNat
  bitmap : boot.freeAddr.toNat ≤ m.framesAddr.toNat ∧ m.framesAddr.toNat + 128 ≤ m.kernelDir.toNat
  directory : m.kernelDir.toNat + 8196 ≤ m.freeAddr.toNat
  tables : ∀ t < 1024, m.tables t ≠ 0 →
    m.kernelDir.toNat + 8196 ≤ (m.tables t).toNat ∧ (m.tables t).toNat + pageSize ≤ m.freeAddr.toNat
  physTables : ∀ t < 1024, m.physTables t ≠ 0 → m.physTables t = m.tables t ||| 7 ∧
    m.translate (m.tables t) = some (m.tables t).toNat

theorem low_bits (x : Word) : (x &&& 0xFFF#32).toNat = x.toNat % 4096 := by
  have mask : (0xFFF#32).toNat = 2 ^ 12 - 1 := by decide
  rw [BitVec.toNat_and, mask, Nat.and_two_pow_sub_one_eq_mod]

theorem high_bits (x : Word) : (x &&& 0xFFFFF000#32).toNat = x.toNat / 4096 * 4096 := by
  have shifted : x &&& 0xFFFFF000#32 = x >>> 12 <<< 12 := by
    apply BitVec.eq_of_getLsbD_eq
    intro i hi
    have mask : ∀ i < 32, (0xFFFFF000#32).getLsbD i = decide (12 ≤ i) := by decide
    rw [BitVec.getLsbD_and, mask i hi, BitVec.getLsbD_shiftLeft, BitVec.getLsbD_ushiftRight]
    by_cases low : i < 12
    · simp [low]
    · have index : 12 + (i - 12) = i := by omega
      simp [low, hi, index, Nat.le_of_not_lt low]
  have small := x.isLt
  rw [shifted, BitVec.toNat_shiftLeft, BitVec.toNat_ushiftRight, Nat.shiftLeft_eq, Nat.shiftRight_eq_div_pow]
  omega

theorem alignFree_zero (freeAddr : Word) : alignFree freeAddr 0 = freeAddr :=
  if_neg fun aligned => absurd aligned.1 (by decide)

theorem add_page_toNat (x : Word) : (x + 0x1000).toNat = (x.toNat + 4096) % 4294967296 := BitVec.toNat_add ..

/-- An aligned allocation starts at the next page boundary. -/
theorem alignFree_one {freeAddr : Word} (fits : freeAddr.toNat + 4095 < 4294967296) :
    (alignFree freeAddr 1).toNat = (freeAddr.toNat + 4095) / 4096 * 4096 := by
  have low := low_bits freeAddr
  unfold alignFree
  split
  · rename_i unaligned
    have off : freeAddr.toNat % 4096 ≠ 0 :=
      fun zero => unaligned.2 (BitVec.eq_of_toNat_eq (low.trans zero))
    rw [add_page_toNat, high_bits]
    omega
  · rename_i aligned
    have on : freeAddr.toNat % 4096 = 0 := by
      by_contra off
      exact aligned ⟨rfl, fun zero => off (low.symm.trans (congrArg BitVec.toNat zero))⟩
    omega

theorem entryAddr_toNat {table : Word} {j : Nat} (hj : j < 1024) (fits : table.toNat + 4096 < 4294967296) :
    (entryAddr table j).toNat = table.toNat + 4 * j := by
  rw [entryAddr, BitVec.toNat_add, BitVec.toNat_ofNat]
  omega

theorem clearTable_inside {pages : Word → Page} {table : Word} {j : Nat} (hj : j < 1024)
    (fits : table.toNat + 4096 < 4294967296) : clearTable pages table (entryAddr table j) = emptyPage := by
  refine if_pos ?_
  rw [BitVec.toNat_sub, entryAddr_toNat hj fits, pageSize]
  omega

theorem clearTable_below {pages : Word → Page} {table a : Word} (below : a.toNat < table.toNat)
    (fits : table.toNat + 4096 < 4294967296) : clearTable pages table a = pages a := by
  refine if_neg ?_
  rw [BitVec.toNat_sub, pageSize]
  omega

/-- The invariant of the loop: k pages are mapped, each to the frame of its own
number, n tables exist, and everything allocated lies below freeAddr. -/
structure Lockstep (boot : Mm) (k n : Nat) (m : Mm) : Prop where
  nframes : m.nframes = 4096
  bits : ∀ f < 4096, frameBit m.frames f = decide (f < k)
  bitmap : boot.freeAddr.toNat ≤ m.framesAddr.toNat ∧ m.framesAddr.toNat + 128 ≤ m.kernelDir.toNat
  directory : m.kernelDir.toNat + 8196 ≤ m.freeAddr.toNat
  low : boot.freeAddr.toNat ≤ 16777216
  rise : m.freeAddr.toNat ≤ boot.freeAddr.toNat + 12419 + 8191 * n
  below : ∀ p < k, 4096 * p < m.freeAddr.toNat
  made : ∀ t, m.tables t ≠ 0 ↔ t < n
  aligned : ∀ t < n, (m.tables t).toNat % 4096 = 0
  placed : ∀ t < n, m.kernelDir.toNat + 8196 ≤ (m.tables t).toNat ∧
    (m.tables t).toNat + 4096 ≤ m.freeAddr.toNat
  distinct : ∀ s < n, ∀ t < n, m.tables s = m.tables t → s = t
  phys : ∀ t, m.physTables t = if t < n then m.tables t ||| 7 else 0
  present : ∀ p < 1024 * n, (m.pages (entryAddr (m.tables (p / 1024)) (p % 1024))).present = 1 ↔ p < k
  frame : ∀ p < k, (m.pages (entryAddr (m.tables (p / 1024)) (p % 1024))).frame.toNat = p

theorem Lockstep.bound {boot m : Mm} {k n : Nat} (inv : Lockstep boot k n m) : m.freeAddr.toNat ≤ 16789635 + 8191 * n := by
  have low := inv.low
  have rise := inv.rise
  omega

/-- A new table is at the next page of the free memory. -/
theorem makeTable_new (m : Mm) (t : Nat) : (makeTable m t).tables t = alignFree m.freeAddr 1 := Function.update_self ..

theorem makeTable_old (m : Mm) {s t : Nat} (other : s ≠ t) : (makeTable m t).tables s = m.tables s :=
  Function.update_of_ne other ..

theorem makeTable_free {m : Mm} (t : Nat) (fits : (alignFree m.freeAddr 1).toNat + 4096 < 4294967296) :
    (makeTable m t).freeAddr.toNat = (alignFree m.freeAddr 1).toNat + 4096 := by
  change (alignFree m.freeAddr 1 + 0x1000).toNat = _
  rw [add_page_toNat]
  omega

theorem alignFree_nonzero {freeAddr : Word} (positive : 0 < freeAddr.toNat) (fits : freeAddr.toNat + 4095 < 4294967296) :
    alignFree freeAddr 1 ≠ 0 := by
  intro zero
  have value := alignFree_one fits
  rw [zero] at value
  change 0 = (freeAddr.toNat + 4095) / 4096 * 4096 at value
  omega

/- The bitmap that init_vmm leaves, where the words past the ones it clears are clear. -/
theorem initTables_bits {boot : Mm} (clear : ∀ w, 32 ≤ w → w < 128 → boot.frames w = 0) {f : Nat} (hf : f < 4096) :
    frameBit (initTables boot).frames f = false := by
  have word : indexFromBit f < 128 := by unfold indexFromBit; omega
  have zero : (initTables boot).frames (indexFromBit f) = 0 := by
    change (if 4 * indexFromBit f < 128 then (0 : Word) else boot.frames (indexFromBit f)) = 0
    split
    · rfl
    · exact clear _ (by omega) word
  rw [frameBit, WordBits.testBit_eq_getLsbD _ _ (offsetFromBit_lt f), zero]
  exact BitVec.getLsbD_zero

theorem initTables_lockstep {boot : Mm} (low : boot.freeAddr.toNat ≤ memSize)
    (clear : ∀ w, 32 ≤ w → w < 128 → boot.frames w = 0) : Lockstep boot 0 0 (initTables boot) := by
  have boundary : boot.freeAddr.toNat ≤ 16777216 := low
  have first : (initTables boot).framesAddr.toNat = boot.freeAddr.toNat :=
    congrArg BitVec.toNat (alignFree_zero _)
  have next : (alignFree boot.freeAddr 0 + 128#32).toNat = boot.freeAddr.toNat + 128 := by
    rw [alignFree_zero, BitVec.toNat_add, BitVec.toNat_ofNat]
    omega
  have dir : (initTables boot).kernelDir.toNat = (boot.freeAddr.toNat + 128 + 4095) / 4096 * 4096 := by
    change (alignFree (alignFree boot.freeAddr 0 + 128#32) 1).toNat = _
    rw [alignFree_one (by rw [next]; omega), next]
  have free : (initTables boot).freeAddr.toNat = (initTables boot).kernelDir.toNat + 8196 := by
    change ((initTables boot).kernelDir + 8196#32).toNat = _
    rw [BitVec.toNat_add, BitVec.toNat_ofNat]
    omega
  refine ⟨rfl, fun f hf => initTables_bits clear hf, ⟨by omega, by omega⟩, by omega, low, by omega, ?_, ?_, ?_, ?_, ?_,
    fun t => rfl, ?_, ?_⟩
  · exact fun p hp => absurd hp (Nat.not_lt_zero p)
  · exact fun t => ⟨fun made => absurd rfl made, fun ht => absurd ht (Nat.not_lt_zero t)⟩
  all_goals
    intro i hi
    exact absurd hi (by omega)

section Loop

variable {boot m : Mm} {k n : Nat} (inv : Lockstep boot k n m)
include inv

theorem Lockstep.table_fits {t : Nat} (ht : t < n) (few : n ≤ 5) : (m.tables t).toNat + 4096 < 4294967296 := by
  have placed := (inv.placed t ht).2
  have bound := inv.bound
  omega

theorem Lockstep.entry_toNat {t j : Nat} (ht : t < n) (few : n ≤ 5) (hj : j < 1024) :
    (entryAddr (m.tables t) j).toNat = (m.tables t).toNat + 4 * j :=
  entryAddr_toNat hj (inv.table_fits ht few)

/-- Two pages have their entries at different addresses. -/
theorem Lockstep.entry_ne {p q : Nat} (hp : p < 1024 * n) (hq : q < 1024 * n) (few : n ≤ 5) (other : p ≠ q) :
    entryAddr (m.tables (p / 1024)) (p % 1024) ≠ entryAddr (m.tables (q / 1024)) (q % 1024) := by
  intro same
  have values := congrArg BitVec.toNat same
  rw [inv.entry_toNat (by omega) few (Nat.mod_lt _ (by decide)),
    inv.entry_toNat (by omega) few (Nat.mod_lt _ (by decide))] at values
  have alignedP := inv.aligned (p / 1024) (by omega)
  have alignedQ := inv.aligned (q / 1024) (by omega)
  have tables : m.tables (p / 1024) = m.tables (q / 1024) := BitVec.eq_of_toNat_eq (by omega)
  have index := inv.distinct _ (by omega) _ (by omega) tables
  rw [tables] at values
  omega

/- The entries of the first n tables lie below a new one. -/
theorem Lockstep.make_kept (few : n < 5) {p : Nat} (hp : p < 1024 * n) :
    (makeTable m n).pages (entryAddr ((makeTable m n).tables (p / 1024)) (p % 1024)) =
      m.pages (entryAddr (m.tables (p / 1024)) (p % 1024)) := by
  have bound := inv.bound
  have value : (alignFree m.freeAddr 1).toNat = (m.freeAddr.toNat + 4095) / 4096 * 4096 := alignFree_one (by omega)
  have ht : p / 1024 < n := by omega
  have placed := (inv.placed _ ht).2
  rw [makeTable_old m (Nat.ne_of_lt ht)]
  apply clearTable_below
  · rw [inv.entry_toNat ht (Nat.le_of_lt few) (Nat.mod_lt _ (by decide))]
    omega
  · omega

/-- A new table, made when the pages of the first n tables have all been mapped. -/
theorem Lockstep.make (few : n < 5) (full : k ≤ 1024 * n) : Lockstep boot k (n + 1) (makeTable m n) := by
  have bound := inv.bound
  have directory := inv.directory
  have value : (alignFree m.freeAddr 1).toNat = (m.freeAddr.toNat + 4095) / 4096 * 4096 := alignFree_one (by omega)
  have fits : (alignFree m.freeAddr 1).toNat + 4096 < 4294967296 := by omega
  have free := makeTable_free n fits
  have made := makeTable_new m n
  have old : ∀ t, t < n → (makeTable m n).tables t = m.tables t := fun t ht => makeTable_old m (Nat.ne_of_lt ht)
  have nonzero : alignFree m.freeAddr 1 ≠ 0 := alignFree_nonzero (by omega) (by omega)
  constructor
  case nframes => exact inv.nframes
  case bits => exact inv.bits
  case bitmap => exact inv.bitmap
  case directory =>
    change m.kernelDir.toNat + 8196 ≤ (makeTable m n).freeAddr.toNat
    omega
  case low => exact inv.low
  case rise =>
    have rise := inv.rise
    omega
  case below =>
    intro p hp
    have low := inv.below p hp
    omega
  case made =>
    intro t
    by_cases same : t = n
    · subst t
      rw [made]
      exact ⟨fun _ => Nat.lt_succ_self n, fun _ => nonzero⟩
    · rw [makeTable_old m same, inv.made]
      omega
  case aligned =>
    intro t ht
    rcases Nat.lt_succ_iff_lt_or_eq.mp ht with lt | rfl
    · rw [old t lt]
      exact inv.aligned t lt
    · rw [made, value]
      omega
  case placed =>
    intro t ht
    change m.kernelDir.toNat + 8196 ≤ _ ∧ _
    rcases Nat.lt_succ_iff_lt_or_eq.mp ht with lt | rfl
    · rw [old t lt]
      have placed := inv.placed t lt
      omega
    · rw [made]
      omega
  case distinct =>
    have apart : ∀ t < n, m.tables t ≠ alignFree m.freeAddr 1 := by
      intro t ht same
      have values := congrArg BitVec.toNat same
      have placed := (inv.placed t ht).2
      omega
    intro s hs t ht same
    rcases Nat.lt_succ_iff_lt_or_eq.mp hs with ltS | rfl
    · rcases Nat.lt_succ_iff_lt_or_eq.mp ht with ltT | rfl
      · rw [old s ltS, old t ltT] at same
        exact inv.distinct s ltS t ltT same
      · rw [old s ltS, made] at same
        exact absurd same (apart s ltS)
    · rcases Nat.lt_succ_iff_lt_or_eq.mp ht with ltT | rfl
      · rw [old t ltT, made] at same
        exact absurd same.symm (apart t ltT)
      · rfl
  case phys =>
    intro t
    change Function.update m.physTables n (alignFree m.freeAddr 1 ||| 7) t = _
    by_cases same : t = n
    · subst t
      rw [Function.update_self, if_pos (Nat.lt_succ_self n), made]
    · rw [Function.update_of_ne same, inv.phys t]
      by_cases lt : t < n
      · rw [if_pos lt, if_pos (Nat.lt_succ_of_lt lt), old t lt]
      · rw [if_neg lt, if_neg (by omega)]
  case present =>
    intro p hp
    by_cases lt : p < 1024 * n
    · rw [inv.make_kept few lt]
      exact inv.present p lt
    · have index : p / 1024 = n := by omega
      rw [index, made]
      change (clearTable m.pages (alignFree m.freeAddr 1) _).present = 1 ↔ _
      rw [clearTable_inside (Nat.mod_lt _ (by decide)) fits]
      exact ⟨fun here => absurd here (by decide), fun hk => absurd hk (by omega)⟩
  case frame =>
    intro p hp
    rw [inv.make_kept few (by omega)]
    exact inv.frame p hp

theorem Lockstep.absent (hk : k < 1024 * n) :
    (m.pages (entryAddr (m.tables (k / 1024)) (k % 1024))).present ≠ 1 :=
  fun here => absurd ((inv.present k hk).mp here) (Nat.lt_irrefl k)

/-- The first clear frame is the one whose number is that of the page. -/
theorem Lockstep.scan (hk : k < 4096) : scanFrames m.frames m.nframes = some k := by
  rw [inv.nframes]
  exact scanFrames_prefix inv.bits (by unfold indexFromBit; omega)

theorem Lockstep.scan_full (hk : k = 4096) : scanFrames m.frames m.nframes = none := by
  rw [inv.nframes]
  exact scanFrames_taken inv.bits (Nat.le_of_eq hk.symm)

/-- Mapping the next page keeps the invariant. -/
theorem Lockstep.map (hk : k < 1024 * n) (few : n ≤ 5) (low : 4096 * k < m.freeAddr.toNat) {v : Vmm Word}
    (allocated : Allocated m.toVmm (entryAddr (m.tables (k / 1024)) (k % 1024)) k v) :
    Lockstep boot (k + 1) n { m with toVmm := v } := by
  refine ⟨allocated.nframes.trans inv.nframes, fun f hf => ?_, inv.bitmap, inv.directory, inv.low, inv.rise,
    fun p hp => ?_, inv.made, inv.aligned, inv.placed, inv.distinct, inv.phys, fun p hp => ?_, fun p hp => ?_⟩
  · change frameBit v.frames f = _
    rw [allocated.bits f, inv.bits f hf, ← Bool.decide_or, decide_eq_decide]
    omega
  · rcases Nat.lt_succ_iff_lt_or_eq.mp hp with lt | rfl
    · exact inv.below p lt
    · exact low
  · by_cases same : p = k
    · subst p
      exact ⟨fun _ => Nat.lt_succ_self k, fun _ => allocated.present⟩
    · have kept := allocated.others _ (inv.entry_ne hp hk few same)
      change (v.pages _).present = 1 ↔ _
      rw [kept, inv.present p hp]
      omega
  · by_cases same : p = k
    · subst p
      exact allocated.frame
    · have kept := allocated.others _ (inv.entry_ne (by omega) hk few same)
      change (v.pages _).frame.toNat = p
      rw [kept]
      exact inv.frame p (by omega)

/-- get_page makes a table just when the page is the first of its table. -/
theorem Lockstep.get (hn : n = (k + 1023) / 1024) (hk : k ≤ 4096) :
    ∃ m', getPage m (BitVec.ofNat 32 (4096 * k)) 1 = (entryAddr (m'.tables (k / 1024)) (k % 1024), m') ∧
      Lockstep boot k (k / 1024 + 1) m' ∧ m.freeAddr.toNat ≤ m'.freeAddr.toNat := by
  have index : (BitVec.ofNat 32 (4096 * k)).toNat / 0x1000 = k := by
    rw [BitVec.toNat_ofNat]
    omega
  unfold getPage
  rw [index]
  by_cases made : m.tables (k / 1024) ≠ 0
  · have lt := (inv.made _).mp made
    have same : n = k / 1024 + 1 := by omega
    exact ⟨m, if_pos made, same ▸ inv, Nat.le_refl _⟩
  · have ge : ¬ k / 1024 < n := fun lt => made ((inv.made _).mpr lt)
    have same : n = k / 1024 := by omega
    have next := inv.make (by omega) (by omega)
    rw [same] at next
    refine ⟨makeTable m (k / 1024), ?_, next, ?_⟩
    · dsimp only
      rw [if_neg made]
      exact if_pos (by decide)
    · have bound := inv.bound
      have last := (next.placed (k / 1024) (Nat.lt_succ_self _)).2
      have value : (alignFree m.freeAddr 1).toNat = (m.freeAddr.toNat + 4095) / 4096 * 4096 :=
        alignFree_one (by omega)
      have new : (makeTable m (k / 1024)).tables (k / 1024) = alignFree m.freeAddr 1 := Function.update_self ..
      rw [new] at last
      omega

end Loop

/-- The loop ends: at the bound that it has caught up with, or for want of frames
with a bound above the physical memory. -/
theorem mapKernel_ends {boot m : Mm} {k fuel : Nat} (hk : k ≤ 4096) (enough : 4097 ≤ k + fuel)
    (inv : Lockstep boot k ((k + 1023) / 1024) m) :
    ∃ e, mapKernel fuel m (BitVec.ofNat 32 (4096 * k)) = some e ∧
      ((memSize < e.mm.freeAddr.toNat ∧ e.mm.freeAddr.toNat ≤ boot.freeAddr.toNat + 53374) ∨
        ∃ m', e = .exit m' ∧ ∃ k' ≤ 4096,
          Lockstep boot k' ((k' + 1023) / 1024) m' ∧ m'.freeAddr.toNat ≤ 4096 * k') := by
  induction fuel generalizing k m with
  | zero => omega
  | succ fuel ih =>
    have bound := inv.bound
    have small : (BitVec.ofNat 32 (4096 * k)).toNat = 4096 * k := by
      rw [BitVec.toNat_ofNat]
      omega
    rw [mapKernel]
    by_cases more : BitVec.ofNat 32 (4096 * k) < m.freeAddr
    · have low : 4096 * k < m.freeAddr.toNat := small ▸ BitVec.lt_def.mp more
      obtain ⟨m', got, inv', grows⟩ := inv.get rfl hk
      rw [if_pos more, got]
      have absent := inv'.absent (by omega)
      rcases Nat.lt_or_eq_of_le hk with lt | full
      · obtain ⟨v, done, allocated⟩ :=
          pfaAlloc_found 0 0 (by rw [inv'.nframes]; decide) absent (inv'.scan lt)
        have mapped := inv'.map (by omega) (by omega) (by omega) allocated
        have next : BitVec.ofNat 32 (4096 * k) + 0x1000 = BitVec.ofNat 32 (4096 * (k + 1)) := by
          apply BitVec.eq_of_toNat_eq
          rw [add_page_toNat, small, BitVec.toNat_ofNat]
          omega
        have count : (k + 1 + 1023) / 1024 = k / 1024 + 1 := by omega
        dsimp only
        rw [done, next]
        exact ih (by omega) (by omega) (count ▸ mapped)
      · have trapped := pfaAlloc_full 0 0 absent (inv'.scan_full full)
        dsimp only
        rw [trapped]
        have rise := inv'.rise
        refine ⟨_, rfl, Or.inl ?_⟩
        change 16777216 < m'.freeAddr.toNat ∧ m'.freeAddr.toNat ≤ _
        omega
    · rw [if_neg more]
      have high : m.freeAddr.toNat ≤ 4096 * k := by
        rw [← small]
        exact Nat.le_of_not_lt fun lt => more (BitVec.lt_def.mpr lt)
      exact ⟨_, rfl, Or.inr ⟨m, rfl, k, hk, inv, high⟩⟩

section Exit

variable {boot m : Mm} {k n : Nat} (inv : Lockstep boot k n m) (full : k ≤ 1024 * n)
include inv full

theorem Lockstep.entry_some {p : Nat} (hp : p < k) :
    m.entry p = some (m.pages (entryAddr (m.tables (p / 1024)) (p % 1024))) :=
  if_neg ((inv.made _).mpr (by omega))

theorem Lockstep.present_iff (p : Nat) : m.Present p ↔ p < k := by
  by_cases made : p / 1024 < n
  · have here := inv.present p (by omega)
    have entry : m.entry p = some _ := if_neg ((inv.made _).mpr made)
    rw [Mm.Present, entry]
    constructor
    · rintro ⟨e, same, present⟩
      cases Option.some.inj same
      exact here.mp present
    · exact fun lt => ⟨_, rfl, here.mpr lt⟩
  · have none : m.entry p = none := if_pos (not_not.mp fun ne => made ((inv.made _).mp ne))
    rw [Mm.Present, none]
    constructor
    · rintro ⟨e, same, _⟩
      cases same
    · intro lt
      omega

theorem Lockstep.translate {a : Word} (low : a.toNat < 4096 * k) : m.translate a = some a.toNat := by
  have hp : a.toNat / pageSize < k := by unfold pageSize; omega
  rw [Mm.translate, inv.entry_some full hp, Option.bind_some, if_pos ((inv.present _ (by omega)).mpr hp),
    inv.frame _ hp, Nat.div_add_mod']

/-- Where the loop has caught up with freeAddr, the region below is mapped to itself. -/
theorem Lockstep.identity (caught : m.freeAddr.toNat ≤ 4096 * k) : IdentityMapped boot m := by
  have mapped : ∀ a : Word, a.toNat < m.freeAddr.toNat → m.translate a = some a.toNat :=
    fun a low => inv.translate full (by omega)
  refine ⟨fun p _ => ?_, fun p _ e entry present => ?_, mapped, inv.bitmap, inv.directory, fun t _ made => ?_,
    fun t _ nonzero => ?_⟩
  · rw [inv.present_iff full, pageSize]
    constructor
    · intro lt
      have low := inv.below p lt
      omega
    · intro low
      omega
  · have lt := (inv.present_iff full p).mp ⟨e, entry, present⟩
    rw [inv.entry_some full lt] at entry
    exact Option.some.inj entry ▸ inv.frame p lt
  · exact inv.placed t ((inv.made t).mp made)
  · rw [inv.phys] at nonzero
    have lt : t < n := by
      by_contra ge
      rw [if_neg ge] at nonzero
      exact nonzero rfl
    have placed := (inv.placed t lt).2
    exact ⟨(inv.phys t).trans (if_pos lt), mapped _ (by omega)⟩

end Exit

theorem mapKernel_more {fuel more : Nat} {m : Mm} {i : Word} {e : Ending} (enough : fuel ≤ more)
    (ended : mapKernel fuel m i = some e) : mapKernel more m i = some e := by
  induction fuel generalizing more m i with
  | zero => cases ended
  | succ fuel ih =>
    obtain ⟨more, rfl⟩ : ∃ n, more = n + 1 := ⟨more - 1, by omega⟩
    rw [mapKernel] at ended ⊢
    split at ended
    · rename_i less
      rw [if_pos less]
      dsimp only at ended ⊢
      cases step : pfaAlloc (getPage m i 1).2.toVmm (getPage m i 1).1 0 0 with
      | error t =>
        rw [step] at ended
        exact ended
      | ok v =>
        rw [step] at ended
        exact ih (by omega) ended
    · rename_i less
      rw [if_neg less]
      exact ended

/-- From a free address inside the physical memory the loop ends, whatever it
allocates, and if it ends inside too then the kernel is mapped to itself. -/
theorem init_paging_maps_kernel {boot : Mm} (low : boot.freeAddr.toNat ≤ memSize)
    (clear : ∀ w, 32 ≤ w → w < 128 → boot.frames w = 0) :
    ∃ e, (∀ fuel, 4097 ≤ fuel → initPaging fuel boot = some e) ∧
      (e.mm.freeAddr.toNat ≤ memSize → ∃ m, e = .exit m ∧ IdentityMapped boot m) := by
  have start := initTables_lockstep low clear
  obtain ⟨e, ended, outcome⟩ := mapKernel_ends (Nat.zero_le _) (by decide : 4097 ≤ 0 + 4097) start
  refine ⟨e, fun fuel enough => mapKernel_more enough ended, fun inside => ?_⟩
  rcases outcome with ⟨outside, -⟩ | ⟨m, rfl, k, _, inv, caught⟩
  · omega
  · exact ⟨m, rfl, inv.identity (by omega) caught⟩

/- A machine before init_paging, with its free memory at an address. -/
def bootMm (freeAddr : Word) : Mm where
  frames := fun _ => 0
  nframes := 0
  pages := fun _ => emptyPage
  freeAddr := freeAddr
  framesAddr := 0
  kernelDir := 0
  tables := fun _ => 0
  physTables := fun _ => 0

theorem init_paging_maps_kernel_low : ∃ m, initPaging 4097 (bootMm 0x1000) = some (.exit m) ∧
    IdentityMapped (bootMm 0x1000) m := by
  have free : (initPaging 4097 (bootMm 0x1000)).map (fun e => e.mm.freeAddr) = some 0x6000 := by decide +kernel
  have low : (bootMm 0x1000).freeAddr.toNat ≤ memSize := by decide
  obtain ⟨e, ended, exits⟩ := init_paging_maps_kernel low (fun _ _ _ => rfl)
  have done := ended 4097 (Nat.le_refl _)
  rw [done] at free
  have value : e.mm.freeAddr = 0x6000 := Option.some.inj free
  have inside : e.mm.freeAddr.toNat ≤ memSize := by
    rw [value]
    decide
  obtain ⟨m, rfl, mapped⟩ := exits inside
  exact ⟨m, done, mapped⟩

/-- From 0xFFFFDE00 the allocation of the directory wraps: the loop ends after two
pages, and the directory at 0xFFFFE000 is not mapped. -/
theorem init_paging_wraps : ∃ m, initPaging 4097 (bootMm 0xFFFFDE00) = some (.exit m) ∧
    m.freeAddr.toNat ≤ memSize ∧ m.kernelDir = 0xFFFFE000 ∧ m.translate m.kernelDir = none ∧
    ¬ IdentityMapped (bootMm 0xFFFFDE00) m := by
  have check : ((initPaging 4097 (bootMm 0xFFFFDE00)).bind Ending.exited).any
      (fun m => decide (m.freeAddr.toNat ≤ memSize) && decide (m.kernelDir = 0xFFFFE000) &&
        decide (m.translate m.kernelDir = none)) = true := by decide +kernel
  obtain ⟨m, exited, check⟩ := (Option.any_eq_true _ _).mp check
  obtain ⟨e, ended, exits⟩ := Option.bind_eq_some_iff.mp exited
  simp only [Bool.and_eq_true, decide_eq_true_eq] at check
  obtain ⟨⟨inside, directory⟩, unmapped⟩ := check
  cases e with
  | trap => cases exits
  | exit m' =>
    cases Option.some.inj exits
    refine ⟨m, ended, inside, directory, unmapped, fun mapped => ?_⟩
    have placed := mapped.directory
    rw [directory] at placed
    have value : (0xFFFFE000 : Word).toNat = 4294959104 := by decide
    unfold memSize at inside
    omega

end Icix
