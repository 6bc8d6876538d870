import Mathlib.Data.List.Find
import Mathlib.Logic.Function.Basic

/-! The interrupt controllers and the timer of a PC, by their ports: two 8259s, the second on line 2 of
the first, and channel 0 of an 8253. The two controllers are one with 16 lines. -/
namespace Devices

abbrev Port := BitVec 16
abbrev Octet := BitVec 8

/- Which word a controller expects at its data port. -/
inductive Phase where
  | ready
  | icw2 (single needs4 : Bool)
  | icw3 (needs4 : Bool)
  | icw4
  deriving DecidableEq

structure Chip where
  request : Octet
  service : Octet
  mask : Octet
  base : Octet
  cascade : Octet
  mode : Octet
  phase : Phase
  readService : Bool
  deriving DecidableEq

/- A line's bit. -/
def bit (n : Nat) : Octet := 1 <<< n

/- An ICW1, an OCW3 or an OCW2; of the last the end of interrupt that names no line, which is
that of the first line in service. -/
def Chip.command (c : Chip) (v : Octet) : Chip :=
  if v.getLsbD 4 then
    { c with phase := .icw2 (v.getLsbD 1) (v.getLsbD 0), request := 0, service := 0, mask := 0, readService := false }
  else if v.getLsbD 3 then if v.getLsbD 1 then { c with readService := v.getLsbD 0 } else c
  else if v &&& 0xE0 = 0x20 then { c with service := c.service &&& (c.service - 1) }
  else c

def Chip.data (c : Chip) (v : Octet) : Chip :=
  match c.phase with
  | .ready => { c with mask := v }
  | .icw2 single needs4 =>
    { c with base := v &&& 0xF8, phase := if single then (if needs4 then .icw4 else .ready) else .icw3 needs4 }
  | .icw3 needs4 => { c with cascade := v, phase := if needs4 then .icw4 else .ready }
  | .icw4 => { c with mode := v, phase := .ready }

def Chip.status (c : Chip) (request : Octet) : Octet := if c.readService then c.service else request

/- The first of the lines that ask, are not masked, and come before all lines in service. -/
def Chip.pending (c : Chip) (request : Octet) : Option Nat :=
  (List.range 8).find? fun n => request.getLsbD n && !c.mask.getLsbD n && (List.range (n + 1)).all fun k => !c.service.getLsbD k

/- A line is served; with automatic ends of interrupts it is over at once. -/
def Chip.serve (c : Chip) (n : Nat) : Chip :=
  { c with request := c.request &&& ~~~bit n, service := if c.mode.getLsbD 1 then c.service else c.service ||| bit n }

/- control is the last control word, low a byte that waits for the high one. -/
structure Pit where
  control : Octet
  low : Option Octet
  reload : BitVec 16
  deriving DecidableEq

/- The control words for other channels are ignored. -/
def Pit.command (p : Pit) (v : Octet) : Pit := if v >>> 6 = 0 then { p with control := v, low := none } else p

def Pit.data (p : Pit) (v : Octet) : Pit :=
  match p.control >>> 4 &&& 3, p.low with
  | 3, none => { p with low := some v }
  | 3, some low => { p with low := none, reload := v ++ low }
  | 2, _ => { p with reload := v ++ (0 : Octet) }
  | 1, _ => { p with reload := (0 : Octet) ++ v }
  | _, _ => p

structure Pc where
  master : Chip
  slave : Chip
  pit : Pit
  deriving DecidableEq

def Pc.outb (d : Pc) (port : Port) (v : Octet) : Pc :=
  if port = 0x20 then { d with master := d.master.command v }
  else if port = 0x21 then { d with master := d.master.data v }
  else if port = 0xA0 then { d with slave := d.slave.command v }
  else if port = 0xA1 then { d with slave := d.slave.data v }
  else if port = 0x43 then { d with pit := d.pit.command v }
  else if port = 0x40 then { d with pit := d.pit.data v }
  else d

/- A device asks for an interrupt. -/
def Pc.raise (d : Pc) (line : Nat) : Pc :=
  if line < 8 then { d with master := { d.master with request := d.master.request ||| bit line } }
  else { d with slave := { d.slave with request := d.slave.request ||| bit (line - 8) } }

theorem raise_pit (d : Pc) (line : Nat) : (d.raise line).pit = d.pit := by
  rw [Pc.raise]
  split
  · rfl
  · rfl

def Pc.slavePending (d : Pc) : Option Nat := d.slave.pending d.slave.request

/- What the master's lines ask for; its line 2 is the slave. -/
def Pc.asked (d : Pc) : Octet := d.master.request ||| (if d.slavePending.isSome then bit 2 else 0)

/- The ports of other devices read as all ones. -/
def Pc.inb (d : Pc) (port : Port) : Octet :=
  if port = 0x20 then d.master.status d.asked
  else if port = 0x21 then d.master.mask
  else if port = 0xA0 then d.slave.status d.slave.request
  else if port = 0xA1 then d.slave.mask
  else 0xFF

/- The processor takes an interrupt, if there is one: its vector. -/
def Pc.acknowledge (d : Pc) : Option (Octet × Pc) :=
  match d.master.pending d.asked with
  | none => none
  | some n =>
    let master := d.master.serve n
    match d.slavePending with
    | some k =>
      if n = 2 ∧ d.master.cascade.getLsbD 2 ∧ d.slave.cascade = 2 then
        some (d.slave.base + BitVec.ofNat 8 k, { d with master := master, slave := d.slave.serve k })
      else some (d.master.base + BitVec.ofNat 8 n, { d with master := master })
    | none => some (d.master.base + BitVec.ofNat 8 n, { d with master := master })

/-- One controller for 16 lines. serving has the line that is served first. -/
structure Lines where
  first : Octet
  second : Octet
  requested : Nat → Bool
  masked : Nat → Bool
  serving : List Nat

/- The slave's lines come between lines 1 and 3. -/
def rank (n : Nat) : Nat := if n < 8 then n else 2

namespace Lines

variable (l : Lines)

/- A line that asks, that nothing masks, and that comes before all that is served. -/
def free (n : Nat) : Bool :=
  l.requested n && !l.masked n && !(decide (8 ≤ n) && l.masked 2) && l.serving.all fun m => decide (rank n < rank m)

def next : Option Nat :=
  ((List.range 2).find? l.free).or (((List.range' 8 8).find? l.free).or ((List.range' 3 5).find? l.free))

def vector (n : Nat) : Octet := if n < 8 then l.first + BitVec.ofNat 8 n else l.second + BitVec.ofNat 8 (n - 8)

def raise (n : Nat) : Lines := { l with requested := Function.update l.requested n true }

def serve (n : Nat) : Lines := { l with requested := Function.update l.requested n false, serving := n :: l.serving }

/- Line 2 is served while one of the slave's lines is. -/
def inService (n : Nat) : Bool := if n < 8 then l.serving.any fun m => decide (rank m = n) else decide (n ∈ l.serving)

theorem next_free {n : Nat} (chosen : l.next = some n) : l.free n = true ∧ n < 16 ∧ n ≠ 2 := by
  rcases Option.or_eq_some_iff.mp chosen with low | ⟨-, later⟩
  · have inside := List.mem_range.mp (List.mem_of_find?_eq_some low)
    exact ⟨List.find?_some low, by omega, by omega⟩
  rcases Option.or_eq_some_iff.mp later with middle | ⟨-, high⟩
  · have inside := List.mem_range'_1.mp (List.mem_of_find?_eq_some middle)
    exact ⟨List.find?_some middle, by omega, by omega⟩
  · have inside := List.mem_range'_1.mp (List.mem_of_find?_eq_some high)
    exact ⟨List.find?_some high, by omega, by omega⟩

end Lines

/- A bit of two octets side by side. -/
def wide (low high : Octet) (n : Nat) : Bool := if n < 8 then low.getLsbD n else high.getLsbD (n - 8)

/- The octets as one word. -/
def wideWord (bits : Nat → Bool) : BitVec 16 := BitVec.ofBoolListLE ((List.range 16).map bits)

/-- The two controllers are set up, and their registers are those of the 16 lines. -/
structure Represents (d : Pc) (l : Lines) : Prop where
  ready : d.master.phase = .ready ∧ d.slave.phase = .ready
  manual : d.master.mode.getLsbD 1 = false ∧ d.slave.mode.getLsbD 1 = false
  cascade : d.master.cascade.getLsbD 2 = true ∧ d.slave.cascade = 2
  bases : d.master.base = l.first ∧ d.slave.base = l.second
  requests : ∀ n < 16, wide d.master.request d.slave.request n = (decide (n ≠ 2) && l.requested n)
  masks : ∀ n < 16, wide d.master.mask d.slave.mask n = l.masked n
  services : ∀ n < 16, wide d.master.service d.slave.service n = l.inService n
  nested : l.serving.Pairwise fun m n => rank m < rank n
  real : ∀ m ∈ l.serving, m < 16 ∧ m ≠ 2

theorem bit_getLsbD {k n : Nat} (hk : k < 8) (hn : n < 8) : (bit k).getLsbD n = decide (n = k) := by
  have all : ∀ k n : Fin 8, (bit k).getLsbD n = decide (n.val = k.val) := by decide
  exact all ⟨k, hk⟩ ⟨n, hn⟩

theorem lowest_cleared (b : Octet) {n : Nat} (hn : n < 8) :
    (b &&& (b - 1)).getLsbD n = (b.getLsbD n && (List.range n).any fun k => b.getLsbD k) := by
  have all : ∀ b : Octet, ∀ n : Fin 8,
      (b &&& (b - 1)).getLsbD n = (b.getLsbD n && (List.range n).any fun k => b.getLsbD k) := by decide +kernel
  exact all b ⟨n, hn⟩

/- An end of interrupt that names no line. -/
theorem command_done (c : Chip) : c.command 0x20 = { c with service := c.service &&& (c.service - 1) } := rfl

section Wide

variable (low high : Octet) {k n : Nat}

theorem wide_set_low (hk : k < 8) : wide (low ||| bit k) high n = (wide low high n || decide (n = k)) := by
  by_cases small : n < 8
  · simp only [wide, if_pos small, BitVec.getLsbD_or, bit_getLsbD hk small]
  · have other : n ≠ k := by omega
    simp [wide, small, other]

theorem wide_set_high (hk : k < 8) (hn : n < 16) :
    wide low (high ||| bit k) n = (wide low high n || decide (n = 8 + k)) := by
  by_cases small : n < 8
  · have other : n ≠ 8 + k := by omega
    simp [wide, small, other]
  · have same : n - 8 = k ↔ n = 8 + k := by omega
    simp only [wide, if_neg small, BitVec.getLsbD_or, bit_getLsbD hk (show n - 8 < 8 by omega), same]

theorem wide_clear_low (hk : k < 8) : wide (low &&& ~~~bit k) high n = (wide low high n && !decide (n = k)) := by
  by_cases small : n < 8
  · simp only [wide, BitVec.getLsbD_and, BitVec.getLsbD_not, small, bit_getLsbD hk small, decide_true, Bool.true_and, if_true]
  · have other : n ≠ k := by omega
    simp [wide, small, other]

theorem wide_clear_high (hk : k < 8) (hn : n < 16) :
    wide low (high &&& ~~~bit k) n = (wide low high n && !decide (n = 8 + k)) := by
  by_cases small : n < 8
  · have other : n ≠ 8 + k := by omega
    simp [wide, small, other]
  · have same : n - 8 = k ↔ n = 8 + k := by omega
    have inside : n - 8 < 8 := by omega
    simp only [wide, if_neg small, BitVec.getLsbD_and, BitVec.getLsbD_not, inside, bit_getLsbD hk inside, same, decide_true,
      Bool.true_and]

theorem wideWord_eq {r : BitVec 16} {bits : Nat → Bool} (same : ∀ n < 16, r.getLsbD n = bits n) : r = wideWord bits := by
  apply BitVec.eq_of_getLsbD_eq
  intro n hn
  have value : (wideWord bits).getLsbD n = ((List.range 16).map bits).getD n false := BitVec.getLsbD_ofBoolListLE
  rw [same n hn, value, List.getD_eq_getElem?_getD, List.getElem?_map, List.getElem?_range hn]
  rfl

theorem wide_low (hn : n < 8) : wide low high n = low.getLsbD n := if_pos hn

theorem wide_high (k : Nat) : wide low high (8 + k) = high.getLsbD k := by
  have large : ¬ 8 + k < 8 := by omega
  rw [wide, if_neg large, Nat.add_sub_cancel_left]

end Wide

namespace Represents

variable {d : Pc} {l : Lines} (represents : Represents d l)
include represents

theorem request_low {n : Nat} (hn : n < 8) (other : n ≠ 2) : d.master.request.getLsbD n = l.requested n := by
  have here := represents.requests n (by omega)
  simpa [wide_low _ _ hn, other] using here

theorem request_high {k : Nat} (hk : k < 8) : d.slave.request.getLsbD k = l.requested (8 + k) := by
  have here := represents.requests (8 + k) (by omega)
  have other : 8 + k ≠ 2 := by omega
  simpa [wide_high, other] using here

theorem mask_low {n : Nat} (hn : n < 8) : d.master.mask.getLsbD n = l.masked n := by
  simpa [wide_low _ _ hn] using represents.masks n (by omega)

theorem mask_high {k : Nat} (hk : k < 8) : d.slave.mask.getLsbD k = l.masked (8 + k) := by
  simpa [wide_high] using represents.masks (8 + k) (by omega)

theorem service_low {n : Nat} (hn : n < 8) : d.master.service.getLsbD n = l.serving.any fun m => decide (rank m = n) := by
  simpa [wide_low _ _ hn, Lines.inService, hn] using represents.services n (by omega)

theorem service_high {k : Nat} (hk : k < 8) : d.slave.service.getLsbD k = decide (8 + k ∈ l.serving) := by
  have large : ¬ 8 + k < 8 := by omega
  simpa [wide_high, Lines.inService, large] using represents.services (8 + k) (by omega)

/-- The first lines of the master that are not in service. -/
theorem above {n : Nat} (hn : n < 8) :
    ((List.range (n + 1)).all fun k => !d.master.service.getLsbD k) = l.serving.all fun m => decide (n < rank m) := by
  rw [Bool.eq_iff_iff, List.all_eq_true, List.all_eq_true]
  constructor
  · intro unserved m member
    rw [decide_eq_true_eq]
    by_contra low
    have clear := unserved (rank m) (List.mem_range.mpr (by omega))
    rw [represents.service_low (by omega), Bool.not_eq_true', List.any_eq_false] at clear
    exact clear m member (decide_eq_true rfl)
  · intro below k inside
    have small := List.mem_range.mp inside
    rw [represents.service_low (by omega), Bool.not_eq_true', List.any_eq_false]
    intro m member same
    have less := of_decide_eq_true (below m member)
    have equal := of_decide_eq_true same
    omega

/-- Of the slave's lines none is in service while the master can serve line 2. -/
theorem slave_idle (below : (l.serving.all fun m => decide (2 < rank m)) = true) {k : Nat} (hk : k < 8) :
    d.slave.service.getLsbD k = false := by
  rw [represents.service_high hk, decide_eq_false_iff_not]
  intro member
  have less := of_decide_eq_true (List.all_eq_true.mp below _ member)
  have large : ¬ 8 + k < 8 := by omega
  simp only [rank, if_neg large] at less
  omega

theorem asked_low {n : Nat} (hn : n < 8) (other : n ≠ 2) : d.asked.getLsbD n = l.requested n := by
  rw [← represents.request_low hn other, Pc.asked]
  split
  · rw [BitVec.getLsbD_or, bit_getLsbD (by omega) hn]
    simp [other]
  · simp

theorem asked_cascade : d.asked.getLsbD 2 = d.slavePending.isSome := by
  have request : d.master.request.getLsbD 2 = false := by
    simpa [wide_low _ _ (show 2 < 8 by decide)] using represents.requests 2 (by decide)
  cases pending : d.slavePending with
  | none => simpa [Pc.asked, pending] using request
  | some k => simp [Pc.asked, pending, bit]

theorem master_low {n : Nat} (hn : n < 8) (other : n ≠ 2) :
    (d.asked.getLsbD n && !d.master.mask.getLsbD n && (List.range (n + 1)).all fun k => !d.master.service.getLsbD k) =
      l.free n := by
  have small : ¬ 8 ≤ n := by omega
  have self : rank n = n := if_pos hn
  rw [represents.asked_low hn other, represents.mask_low hn, represents.above hn, Lines.free]
  simp [small, self]

/- Whether the master serves its line 2 if that asks. -/
theorem master_cascade :
    (d.asked.getLsbD 2 && !d.master.mask.getLsbD 2 && (List.range (2 + 1)).all fun k => !d.master.service.getLsbD k) =
      (d.slavePending.isSome && !l.masked 2 && l.serving.all fun m => decide (2 < rank m)) := by
  rw [represents.asked_cascade, represents.mask_low (by decide), represents.above (by decide)]

/-- The slave's lines that the master lets through. -/
theorem middle : (List.range' 8 8).find? l.free =
    if (!l.masked 2 && l.serving.all fun m => decide (2 < rank m)) = true then d.slavePending.map (8 + ·) else none := by
  rw [List.range'_eq_map_range, List.find?_map]
  have rank' : ∀ k, rank (8 + k) = 2 := fun k => if_neg (by omega)
  have large : ∀ k, 8 ≤ 8 + k := fun k => by omega
  split
  · rename_i through
    obtain ⟨unmasked, below⟩ := (Bool.and_eq_true _ _).mp through
    rw [Pc.slavePending, Chip.pending]
    congr 1
    apply List.find?_congr
    intro k member
    have hk := List.mem_range.mp member
    have idle : ((List.range (k + 1)).all fun j => !d.slave.service.getLsbD j) = true := by
      rw [List.all_eq_true]
      intro j inside
      have hj := List.mem_range.mp inside
      rw [represents.slave_idle below (by omega), Bool.not_false]
    have free2 : l.masked 2 = false := by simpa using unmasked
    rw [represents.request_high hk, represents.mask_high hk, idle]
    simp [Lines.free, rank', large, free2, below]
  · rename_i blocked
    rw [Option.map_eq_none_iff, List.find?_eq_none]
    intro k _ free
    simp only [Function.comp, Lines.free, rank', large, Bool.and_eq_true] at free
    exact blocked (by simpa using ⟨by simpa using free.1.2, by simpa using free.2⟩)

theorem pending_eq : d.master.pending d.asked = ((List.range 2).find? l.free).or
    ((if (d.slavePending.isSome && !l.masked 2 && l.serving.all fun m => decide (2 < rank m)) = true then some 2 else none).or
      ((List.range' 3 5).find? l.free)) := by
  have split : List.range 8 = List.range 2 ++ 2 :: List.range' 3 5 := by decide
  rw [Chip.pending, split, List.find?_append, List.find?_cons, represents.master_cascade]
  congr 1
  · apply List.find?_congr
    intro n member
    have small := List.mem_range.mp member
    exact represents.master_low (by omega) (by omega)
  · have high : ∀ n ∈ List.range' 3 5, (d.asked.getLsbD n && !d.master.mask.getLsbD n &&
        (List.range (n + 1)).all fun k => !d.master.service.getLsbD k) = l.free n := by
      intro n member
      have inside := List.mem_range'_1.mp member
      exact represents.master_low (by omega) (by omega)
    rw [List.find?_congr high]
    split
    · rename_i through
      rw [through]
      rfl
    · rename_i blocked
      rw [blocked]
      rfl

/-- What is served comes before all that has been served before. -/
theorem nested_serve {n : Nat} (free : l.free n = true) : (n :: l.serving).Pairwise fun m n => rank m < rank n := by
  refine List.pairwise_cons.mpr ⟨fun m member => ?_, represents.nested⟩
  simp only [Lines.free, Bool.and_eq_true] at free
  exact of_decide_eq_true (List.all_eq_true.mp free.2 m member)

/-- One of the master's own lines is served. -/
theorem serve_low {n : Nat} (hn : n < 8) (other : n ≠ 2) (free : l.free n = true) :
    Represents { d with master := d.master.serve n } (l.serve n) where
  ready := represents.ready
  manual := represents.manual
  cascade := represents.cascade
  bases := represents.bases
  requests i hi := by
    simp only [Chip.serve, Lines.serve, wide_clear_low _ _ hn, represents.requests i hi]
    by_cases same : i = n
    · simp [same]
    · simp [same]
  masks := represents.masks
  services i hi := by
    have self : rank n = n := if_pos hn
    simp only [Chip.serve, represents.manual.1, Bool.false_eq_true, if_false, wide_set_low _ _ hn, represents.services i hi]
    by_cases small : i < 8
    · simp [Lines.inService, Lines.serve, small, self, Bool.or_comm, eq_comm]
    · have far : i ≠ n := by omega
      simp [Lines.inService, Lines.serve, small, far]
  nested := represents.nested_serve free
  real m member := by
    rcases List.mem_cons.mp member with rfl | old
    · exact ⟨by omega, other⟩
    · exact represents.real m old

/-- One of the slave's lines is served, and with it the master's line 2. -/
theorem serve_high {k : Nat} (hk : k < 8) (free : l.free (8 + k) = true) :
    Represents { d with master := d.master.serve 2, slave := d.slave.serve k } (l.serve (8 + k)) where
  ready := represents.ready
  manual := represents.manual
  cascade := represents.cascade
  bases := represents.bases
  requests i hi := by
    simp only [Chip.serve, Lines.serve, wide_clear_low _ _ (show 2 < 8 by decide), wide_clear_high _ _ hk hi,
      represents.requests i hi]
    by_cases cascade : i = 2
    · simp [cascade]
    · by_cases same : i = 8 + k
      · simp [same]
      · simp [cascade, same]
  masks := represents.masks
  services i hi := by
    have self : rank (8 + k) = 2 := if_neg (by omega)
    simp only [Chip.serve, represents.manual.1, represents.manual.2, Bool.false_eq_true, if_false,
      wide_set_low _ _ (show 2 < 8 by decide), wide_set_high _ _ hk hi, represents.services i hi]
    by_cases small : i < 8
    · have far : i ≠ 8 + k := by omega
      simp [Lines.inService, Lines.serve, small, self, far, Bool.or_comm, eq_comm]
    · have far : i ≠ 2 := by omega
      simp [Lines.inService, Lines.serve, small, far, Bool.or_comm]
  nested := represents.nested_serve free
  real m member := by
    rcases List.mem_cons.mp member with rfl | old
    · exact ⟨by omega, by omega⟩
    · exact represents.real m old

theorem take_low {n : Nat} (hn : n < 8) (other : n ≠ 2) (pending : d.master.pending d.asked = some n) :
    d.acknowledge = some (l.vector n, { d with master := d.master.serve n }) := by
  have vector : l.vector n = d.master.base + BitVec.ofNat 8 n := by rw [Lines.vector, if_pos hn, represents.bases.1]
  cases slave : d.slavePending with
  | none => simp only [Pc.acknowledge, pending, slave, vector]
  | some k => simp only [Pc.acknowledge, pending, slave, vector, other, false_and, if_false]

theorem take_high {k : Nat} (pending : d.master.pending d.asked = some 2) (slave : d.slavePending = some k) :
    d.acknowledge = some (l.vector (8 + k), { d with master := d.master.serve 2, slave := d.slave.serve k }) := by
  have large : ¬ 8 + k < 8 := by omega
  have vector : l.vector (8 + k) = d.slave.base + BitVec.ofNat 8 k := by
    rw [Lines.vector, if_neg large, represents.bases.2, Nat.add_sub_cancel_left]
  simp only [Pc.acknowledge, pending, slave, vector, represents.cascade, and_self, if_true]

/-- The processor takes the same interrupts from the two controllers as from the one. -/
theorem acknowledge : (l.next = none → d.acknowledge = none) ∧ ∀ n, l.next = some n →
    ∃ d', d.acknowledge = some (l.vector n, d') ∧ d'.pit = d.pit ∧ Represents d' (l.serve n) := by
  have pending := represents.pending_eq
  have middle := represents.middle
  -- Once it is clear that the two choose one of the master's lines.
  have low : ∀ {n}, l.next = some n → d.master.pending d.asked = some n → n < 8 →
      ∃ d', d.acknowledge = some (l.vector n, d') ∧ d'.pit = d.pit ∧ Represents d' (l.serve n) := by
    intro n chosen same hn
    obtain ⟨free, -, other⟩ := l.next_free chosen
    exact ⟨_, represents.take_low hn other same, rfl, represents.serve_low hn other free⟩
  cases first : (List.range 2).find? l.free with
  | some n =>
    have chosen : l.next = some n := by rw [Lines.next, first, Option.some_or]
    have inside := List.mem_range.mp (List.mem_of_find?_eq_some first)
    rw [first, Option.some_or] at pending
    refine ⟨fun none => (by rw [none] at chosen; cases chosen), fun m this => ?_⟩
    cases chosen.symm.trans this
    exact low chosen pending (by omega)
  | none =>
    have rest : l.next = ((List.range' 8 8).find? l.free).or ((List.range' 3 5).find? l.free) := by
      rw [Lines.next, first, Option.none_or]
    rw [first, Option.none_or] at pending
    by_cases slave : ∃ k, d.slavePending = some k ∧ (!l.masked 2 && l.serving.all fun m => decide (2 < rank m)) = true
    · obtain ⟨k, asks, through⟩ := slave
      have hk := List.mem_range.mp (List.mem_of_find?_eq_some asks)
      rw [if_pos through, asks] at middle
      have chosen : l.next = some (8 + k) := by rw [rest, middle, Option.map_some, Option.some_or]
      rw [asks, Option.isSome_some, Bool.true_and, if_pos through, Option.some_or] at pending
      refine ⟨fun none => (by rw [none] at chosen; cases chosen), fun m this => ?_⟩
      cases chosen.symm.trans this
      exact ⟨_, represents.take_high pending asks, rfl, represents.serve_high hk (l.next_free chosen).1⟩
    · have blocked : ¬ (d.slavePending.isSome && !l.masked 2 && l.serving.all fun m => decide (2 < rank m)) = true := by
        intro through
        rw [Bool.and_assoc, Bool.and_eq_true] at through
        obtain ⟨k, asks⟩ := Option.isSome_iff_exists.mp through.1
        exact slave ⟨k, asks, through.2⟩
      have nothing : (List.range' 8 8).find? l.free = none := by
        rw [middle]
        split
        · rename_i through
          rw [Option.map_eq_none_iff, Option.eq_none_iff_forall_ne_some]
          exact fun k asks => slave ⟨k, asks, through⟩
        · rfl
      rw [nothing, Option.none_or] at rest
      rw [if_neg blocked, Option.none_or] at pending
      refine ⟨fun none => ?_, fun n chosen => ?_⟩
      · simp only [Pc.acknowledge, pending, ← rest, none]
      · have inside := List.mem_range'_1.mp (List.mem_of_find?_eq_some (rest ▸ chosen))
        exact low chosen (by rw [pending, ← rest, chosen]) (by omega)

theorem raise {n : Nat} (hn : n < 16) (other : n ≠ 2) : Represents (d.raise n) (l.raise n) := by
  obtain ⟨ready, manual, cascade, bases, requests, masks, services, nested, real⟩ := represents
  have asked : ∀ i, (decide (i ≠ 2) && (l.raise n).requested i) = ((decide (i ≠ 2) && l.requested i) || decide (i = n)) := by
    intro i
    by_cases same : i = n
    · simp [Lines.raise, same, other]
    · simp [Lines.raise, same]
  rw [Pc.raise]
  split
  · rename_i small
    refine ⟨ready, manual, cascade, bases, fun i hi => ?_, masks, services, nested, real⟩
    rw [asked, ← requests i hi, wide_set_low _ _ small]
  · rename_i large
    have back : 8 + (n - 8) = n := by omega
    refine ⟨ready, manual, cascade, bases, fun i hi => ?_, masks, services, nested, real⟩
    rw [asked, ← requests i hi, wide_set_high _ _ (by omega) hi, back]

section Done

variable {n : Nat} {rest : List Nat} (last : l.serving = n :: rest)
include last

theorem before : ∀ m ∈ rest, rank n < rank m := by
  have nested := represents.nested
  rw [last] at nested
  exact (List.pairwise_cons.mp nested).1

theorem master_done {i : Nat} (hi : i < 8) :
    (d.master.command 0x20).service.getLsbD i = rest.any fun m => decide (rank m = i) := by
  have before := represents.before last
  rw [command_done, lowest_cleared _ hi, represents.service_low hi, last, Bool.eq_iff_iff]
  simp only [Bool.and_eq_true, List.any_cons, Bool.or_eq_true, decide_eq_true_eq, List.any_eq_true]
  constructor
  · rintro ⟨rfl | old, k, lower, served⟩
    · have less := List.mem_range.mp lower
      rw [represents.service_low (by omega), last, List.any_cons, Bool.or_eq_true, decide_eq_true_eq,
        List.any_eq_true] at served
      rcases served with same | ⟨m, member, same⟩
      · omega
      · have later := before m member
        rw [decide_eq_true_eq] at same
        omega
    · exact old
  · rintro ⟨m, member, same⟩
    have later := before m member
    refine ⟨.inr ⟨m, member, same⟩, rank n, List.mem_range.mpr (by omega), ?_⟩
    rw [represents.service_low (by omega), last]
    simp

theorem slave_done {k : Nat} (hk : k < 8) :
    (if 8 ≤ n then d.slave.command 0x20 else d.slave).service.getLsbD k = decide (8 + k ∈ rest) := by
  have before := represents.before last
  have other : ∀ j, rank (8 + j) = 2 := fun j => if_neg (by omega)
  by_cases slave : 8 ≤ n
  · have two : rank n = 2 := if_neg (by omega)
    have alone : ∀ j, 8 + j ∉ rest := by
      intro j member
      have later := before _ member
      rw [two, other] at later
      omega
    rw [if_pos slave, command_done, lowest_cleared _ hk, represents.service_high hk, last, decide_eq_false (alone k),
      Bool.and_eq_false_iff, decide_eq_false_iff_not, List.any_eq_false]
    by_cases same : 8 + k = n
    · refine .inr fun j less served => ?_
      have lower := List.mem_range.mp less
      rw [represents.service_high (by omega), last, decide_eq_true_eq, List.mem_cons] at served
      rcases served with here | member
      · omega
      · exact alone j member
    · exact .inl fun member => (List.mem_cons.mp member).elim same (alone k)
  · have far : 8 + k ≠ n := by omega
    rw [if_neg slave, represents.service_high hk, last]
    simp [far]

/-- Ends of interrupts, to the two controllers or to the master alone, end what has been served last. -/
theorem done : Represents { d with slave := if 8 ≤ n then d.slave.command 0x20 else d.slave, master := d.master.command 0x20 }
    { l with serving := rest } := by
  have nested := represents.nested
  have real := represents.real
  have top := fun i (hi : i < 8) => represents.master_done last hi
  have bottom := fun k (hk : k < 8) => represents.slave_done last hk
  have kept : (if 8 ≤ n then d.slave.command 0x20 else d.slave) =
      { d.slave with service := (if 8 ≤ n then d.slave.command 0x20 else d.slave).service } := by
    split
    · rfl
    · rfl
  rw [last] at nested real
  generalize (if 8 ≤ n then d.slave.command 0x20 else d.slave) = slave at kept bottom
  rw [kept]
  refine ⟨represents.ready, represents.manual, represents.cascade, represents.bases, represents.requests, represents.masks,
    fun i hi => ?_, (List.pairwise_cons.mp nested).2, fun m member => real m (List.mem_cons_of_mem _ member)⟩
  simp only [wide, Lines.inService]
  split
  · rename_i small
    exact top i small
  · rename_i large
    have back : 8 + (i - 8) = i := by omega
    rw [bottom _ (by omega), back]

end Done

end Represents

/- Two PCs that differ at most in the lines that ask. Line 2 is the slave's in both. -/
structure SameButAsking (d e : Pc) : Prop where
  master : e.master = { d.master with request := e.master.request }
  slave : e.slave = { d.slave with request := e.slave.request }
  pit : e.pit = d.pit
  cascade : e.master.request.getLsbD 2 = d.master.request.getLsbD 2

namespace SameButAsking

theorem refl (d : Pc) : SameButAsking d d := ⟨rfl, rfl, rfl, rfl⟩

theorem command_asking (c : Chip) (request v : Octet) :
    ({ c with request := request }).command v = { c.command v with request := if v.getLsbD 4 then 0 else request } := by
  simp only [Chip.command]
  split
  · rfl
  · split
    · split
      · rfl
      · rfl
    · split
      · rfl
      · rfl

theorem command_request (c : Chip) (v : Octet) : (c.command v).request = if v.getLsbD 4 then 0 else c.request := by
  conv_lhs => rw [show c = { c with request := c.request } from rfl, command_asking]

theorem data_asking (c : Chip) (request v : Octet) :
    ({ c with request := request }).data v = { c.data v with request := request } := by
  simp only [Chip.data]
  split
  · rfl
  · rfl
  · rfl
  · rfl

theorem data_request (c : Chip) (v : Octet) : (c.data v).request = c.request := by
  conv_lhs => rw [show c = { c with request := c.request } from rfl, data_asking]

variable {d e : Pc} (same : SameButAsking d e)
include same

/-- A port is written to. -/
theorem outb (port : Port) (v : Octet) : SameButAsking (d.outb port v) (e.outb port v) := by
  obtain ⟨master, slave, pit, cascade⟩ := same
  simp only [Pc.outb]
  split
  · refine ⟨?_, slave, pit, ?_⟩
    · simp only
      rw [master, command_asking]
    · simp only [command_request, apply_ite (fun r : Octet => r.getLsbD 2), cascade]
  split
  · refine ⟨?_, slave, pit, ?_⟩
    · simp only
      rw [master, data_asking]
    · simp only [data_request, cascade]
  split
  · refine ⟨master, ?_, pit, cascade⟩
    simp only
    rw [slave, command_asking]
  split
  · refine ⟨master, ?_, pit, cascade⟩
    simp only
    rw [slave, data_asking]
  split
  · exact ⟨master, slave, congrArg (Pit.command · v) pit, cascade⟩
  split
  · exact ⟨master, slave, congrArg (Pit.data · v) pit, cascade⟩
  · exact ⟨master, slave, pit, cascade⟩

theorem masks : e.master.mask = d.master.mask ∧ e.slave.mask = d.slave.mask :=
  ⟨by rw [same.master], by rw [same.slave]⟩

/-- A device asks in one of them. -/
theorem raise {n : Nat} (other : n ≠ 2) : SameButAsking d (e.raise n) := by
  obtain ⟨master, slave, pit, cascade⟩ := same
  rw [Pc.raise]
  split
  · rename_i small
    refine ⟨?_, slave, pit, ?_⟩
    · simp only
      rw [master]
    · simp only
      rw [BitVec.getLsbD_or, bit_getLsbD small (by decide), decide_eq_false (Ne.symm other), Bool.or_false, cascade]
  · refine ⟨master, ?_, pit, cascade⟩
    simp only
    rw [slave]

/-- The one controller for them differs in the lines that ask. -/
theorem represents {l : Lines} (represents : Represents d l) :
    Represents e { l with requested := fun n => decide (n ≠ 2) && wide e.master.request e.slave.request n } where
  ready := by
    rw [same.master, same.slave]
    exact represents.ready
  manual := by
    rw [same.master, same.slave]
    exact represents.manual
  cascade := by
    rw [same.master, same.slave]
    exact represents.cascade
  bases := by
    rw [same.master, same.slave]
    exact represents.bases
  requests n hn := by
    by_cases cascaded : n = 2
    · subst cascaded
      exact same.cascade.trans (represents.requests 2 hn)
    · simp [cascaded]
  masks := by
    rw [same.master, same.slave]
    exact represents.masks
  services := by
    rw [same.master, same.slave]
    exact represents.services
  nested := represents.nested
  real := represents.real

end SameButAsking

end Devices
