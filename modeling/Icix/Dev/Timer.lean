import Icix.Dev.Interrupts
import Icix.Dev.Pic

/-! The timer: how the kernel starts it, and what its interrupts do from then on. -/
namespace Icix
open Bytes Devices Ia32 Runs

structure GdtEntry where
  limitLow : BitVec 16
  baseLow : BitVec 16
  baseMiddle : Byte
  access : Byte
  granularity : Byte
  baseHigh : Byte

def gdtSetGate (gdt : Nat → GdtEntry) (num : Nat) (base limit : Word) (access gran : Byte) : Nat → GdtEntry :=
  Function.update gdt num
    { baseLow := (base &&& 0xFFFF).setWidth 16
      baseMiddle := (base >>> 16 &&& 0xFF).setWidth 8
      baseHigh := (base >>> 24 &&& 0xFF).setWidth 8
      limitLow := (limit &&& 0xFFFF).setWidth 16
      granularity := (limit >>> 16 &&& 0x0F).setWidth 8 ||| gran &&& 0xF0
      access := access }

def initGdt (gdt : Nat → GdtEntry) : Nat → GdtEntry :=
  let gdt := gdtSetGate gdt 0 0 0 0 0
  let gdt := gdtSetGate gdt 1 0 0xFFFF 0x9A 0xCF
  let gdt := gdtSetGate gdt 2 0 0xFFFF 0x92 0xCF
  let gdt := gdtSetGate gdt 3 0 0xFFFFFFFF 0xFA 0xCF
  gdtSetGate gdt 4 0 0xFFFFFFFF 0xF2 0xCF

/- The selector that _gdt_flush loads into ds. -/
def dataSelector : Nat := 0x10

/- The devices, and what has been printed. -/
structure Board where
  pc : Pc
  out : List Byte

/- A read of a word through ds. mapped says which pages are present; the exceptions are a
general protection fault and a page fault, with their error codes. -/
def fetch (gdt : Nat → GdtEntry) (mapped : Word → Bool) (s : Machine Board) (a : Word) : Except (Nat × Word) Word :=
  let data := gdt (dataSelector / 8)
  if a.toNat + 3 ≤ segmentLimit data.limitLow data.granularity then
    let linear := segmentBase data.baseLow data.baseMiddle data.baseHigh + a
    if mapped linear && mapped (linear + 3) then .ok (load s.mem linear) else .error (14, 0)
  else .error (13, 0)

section Handlers

variable (floats : Libc.Floats) (rodata : Nat → Byte) (gdt : Nat → GdtEntry) (mapped : Word → Bool) (tick : Word) (frame : Nat)

/- tick is where the linker has put it, frame the stack that the function uses. -/
def timerCallback (regs : CpuState) (s : Machine Board) : Except (Stop Board) (Machine Board) :=
  let s := { s with dev := { s.dev with pc := picSendEoi ((regs.intNo - 32).setWidth 8) s.dev.pc } }
  let s := { s with mem := store s.mem tick (load s.mem tick + 1) }
  if load s.mem tick % 250 = 0 then
    match fetch gdt mapped s 0xFFFFFFFF with
    | .error (vector, code) => .error (.fault vector (some code) { s with esp := s.esp - BitVec.ofNat 32 frame })
    | .ok tmp =>
      match Libc.vprintf floats (Libc.bytes "value: %d\n") [tmp] rodata with
      | .ok p => .ok { s with dev := { s.dev with out := s.dev.out ++ p.out } }
      | .error e => .error (.hung (.error e))
  else .ok s

/- It ends in abort, which hangs. -/
def pageFault : Except (Stop Board) (Machine Board) :=
  .error (.hung (do
    let p ← Libc.vprintf floats (Libc.bytes "Page fault!\n") [] rodata
    let q ← Libc.vprintf floats (Libc.bytes "kernel: panic: abort()\n") [] rodata
    return p.out ++ q.out))

/- The functions that the kernel registers, at their addresses. -/
structure Symbols where
  pageFaultAt : Word
  timerCallbackAt : Word
  present : timerCallbackAt ≠ 0
  apart : pageFaultAt ≠ timerCallbackAt

def Symbols.run (symbols : Symbols) (a : Word) (regs : CpuState) (s : Machine Board) : Except (Stop Board) (Machine Board) :=
  if a = symbols.timerCallbackAt then timerCallback floats rodata gdt mapped tick frame regs s
  else if a = symbols.pageFaultAt then pageFault floats rodata
  else .error .outOfBounds

end Handlers

/- What the kernel's set-up does with handlers and ports, access by access, so that devices and interrupts can
come between them. It faults where it divides by zero. -/
inductive SetUp where
  | done
  | fault
  | register (num handler : Word) (next : SetUp)
  | outb (port : Port) (v : Octet) (next : SetUp)
  | inb (port : Port) (next : Octet → SetUp)

namespace SetUp

def ioWait (next : SetUp) : SetUp := .outb 0x80 0 next

def picRemap (offset1 offset2 : Word) (next : SetUp) : SetUp :=
  .inb pic1Data fun a1 => .inb pic2Data fun a2 =>
  .outb pic1Command (icw1Init ||| icw1Icw4) <| ioWait <| .outb pic2Command (icw1Init ||| icw1Icw4) <| ioWait <|
  .outb pic1Data (offset1.setWidth 8) <| ioWait <| .outb pic2Data (offset2.setWidth 8) <| ioWait <|
  .outb pic1Data 4 <| ioWait <| .outb pic2Data 2 <| ioWait <|
  .outb pic1Data icw48086 <| ioWait <| .outb pic2Data icw48086 <| ioWait <|
  .outb pic1Data a1 <| .outb pic2Data a2 next

def picDisable (next : SetUp) : SetUp := .outb pic1Data 0xff <| .outb pic2Data 0xff next

def initTimer (timerCallback frequency : Word) (next : SetUp) : SetUp :=
  .register 32 timerCallback <|
  if frequency = 0 then .fault else
    let divisor := 1193180 / frequency
    .outb 0x43 0x36 <|
    let l : Octet := (divisor &&& 0xFF).setWidth 8
    let h : Octet := (divisor >>> 8 &&& 0xFF).setWidth 8
    .outb 0x40 l <| .outb 0x40 h next

def irqClearMask (irqLine : Octet) (next : SetUp) : SetUp :=
  let (port, line) := maskPort irqLine
  .inb port fun value => .outb port ((value.setWidth 32 &&& ~~~((1 : Word) <<< (line.toNat % 32))).setWidth 8) next

/- The set-up with nothing between its accesses. -/
def exec : SetUp → Handlers → Pc → Option (Handlers × Pc)
  | .done, handlers, d => some (handlers, d)
  | .fault, _, _ => none
  | .register num handler next, handlers, d => do next.exec (← registerIntHandler handlers num handler) d
  | .outb port v next, handlers, d => next.exec handlers (d.outb port v)
  | .inb port next, handlers, d => (next (d.inb port)).exec handlers d

theorem picRemap_exec (offset1 offset2 : Word) (next : SetUp) (handlers : Handlers) (d : Pc) :
    (picRemap offset1 offset2 next).exec handlers d = next.exec handlers (Icix.picRemap offset1 offset2 d) := rfl

theorem picDisable_exec (next : SetUp) (handlers : Handlers) (d : Pc) :
    (picDisable next).exec handlers d = next.exec handlers (Icix.picDisable d) := rfl

theorem irqClearMask_exec (irqLine : Octet) (next : SetUp) (handlers : Handlers) (d : Pc) :
    (irqClearMask irqLine next).exec handlers d = next.exec handlers (Icix.irqClearMask irqLine d) := rfl

end SetUp

/- What kernel_main and init_paging do for interrupts once init_idt has let them in. -/
def startClock (symbols : Symbols) : SetUp :=
  .register 14 symbols.pageFaultAt <| .picRemap 0x20 0x28 <| .picDisable <|
  .initTimer symbols.timerCallbackAt 50 <| .irqClearMask 0 .done

/-- What happens next: a step of the code that runs, a device asks for an interrupt, or the processor looks for one. -/
inductive BoardEvent where
  | program
  | raise (line : Nat)
  | interrupt

section Clock

variable (floats : Libc.Floats) (rodata : Nat → Byte) (handlers : Handlers)
  (run : Word → CpuState → Machine Board → Except (Stop Board) (Machine Board)) (idt : Idt)
  (code : Word → Option (List Instr)) (back : Word)

/- An interrupt is taken where the flag IF is set. -/
def boardStep (program : Machine Board → Except (Gone (Stop Board)) (Machine Board)) (s : Machine Board) :
    BoardEvent → Except (Gone (Stop Board)) (Machine Board)
  | .program => program s
  | .raise line => .ok { s with dev := { s.dev with pc := s.dev.pc.raise line } }
  | .interrupt =>
    if s.eflags.getLsbD 9 then
      match s.dev.pc.acknowledge with
      | some (vector, pc) =>
        interrupt floats rodata handlers run idt code back vector.toNat none { s with dev := { s.dev with pc := pc } }
      | none => .ok s
    else .ok s

end Clock

/-- Devices are not on the slave's line, and the stack has room for an interrupt and an exception in its handler. -/
def BoardEvent.Allowed (bottom top frame : Nat) (s : Machine Board) : BoardEvent → Prop
  | .program => True
  | .raise line => line < 16 ∧ line ≠ 2
  | .interrupt => bottom + 120 + frame ≤ s.esp.toNat ∧ s.esp.toNat + 8 ≤ top

/- A kernel that is still at its set-up. -/
structure Booting where
  todo : SetUp
  handlers : Handlers
  machine : Machine Board

/-- What happens to it: the next access of the set-up, or what happens to any machine. -/
inductive BootEvent where
  | setUp
  | board (e : BoardEvent)

def bootStep (floats : Libc.Floats) (rodata : Nat → Byte)
    (run : Word → CpuState → Machine Board → Except (Stop Board) (Machine Board)) (idt : Idt) (code : Word → Option (List Instr))
    (back : Word) (program : Machine Board → Except (Gone (Stop Board)) (Machine Board)) (s : Booting) :
    BootEvent → Except (Gone (Stop Board)) Booting
  | .setUp => match s.todo with
    | .done => .ok s
    | .fault => .error .lost
    | .register num handler next => match registerIntHandler s.handlers num handler with
      | some handlers => .ok { s with todo := next, handlers := handlers }
      | none => .error (.fault .outOfBounds)
    | .outb port v next =>
      .ok { s with todo := next, machine := { s.machine with dev := { s.machine.dev with pc := s.machine.dev.pc.outb port v } } }
    | .inb port next => .ok { s with todo := next (s.machine.dev.pc.inb port) }
  | .board e => (boardStep floats rodata s.handlers run idt code back program s.machine e).map fun machine =>
    { s with machine := machine }

/-- The set-up is not over. -/
def BootEvent.Allowed (bottom top frame : Nat) (s : Booting) : BootEvent → Prop
  | .setUp => s.todo ≠ .done
  | .board e => s.todo ≠ .done ∧ e.Allowed bottom top frame s.machine

/-- A clock: how often it has ticked, and whether it is to tick again. -/
structure Clock where
  ticks : Nat
  pending : Bool

def Clock.tell (s : Machine Board) (e : BoardEvent) (_ : Machine Board) (c : Clock) : Clock :=
  match e with
  | .program => c
  | .raise line => if line = 0 then { c with pending := true } else c
  | .interrupt => if s.eflags.getLsbD 9 && c.pending then ⟨c.ticks + 1, false⟩ else c

/-- The limit of a gate as the processor reads it. -/
theorem segmentLimit_gate (limit : Word) (gran : Byte) :
    segmentLimit ((limit &&& 0xFFFF).setWidth 16) ((limit >>> 16 &&& 0x0F).setWidth 8 ||| gran &&& 0xF0) =
      if gran.getLsbD 7 then limit.toNat % 2 ^ 20 * 4096 + 4095 else limit.toNat % 2 ^ 20 := by
  have high : ((limit >>> 16 &&& 0x0F).setWidth 8 ||| gran &&& 0xF0).setWidth 4 = (limit >>> 16).setWidth 4 := by
    have ones : (0x0F : Word).setWidth 4 = BitVec.allOnes 4 := by decide
    have none : (0xF0 : Byte).setWidth 4 = (0 : BitVec 4) := by decide
    rw [BitVec.setWidth_or, BitVec.setWidth_setWidth_of_le _ (by decide), BitVec.setWidth_and, BitVec.setWidth_and, ones,
      none, BitVec.and_allOnes]
    simp
  have flag : ((limit >>> 16 &&& 0x0F).setWidth 8 ||| gran &&& 0xF0).getLsbD 7 = gran.getLsbD 7 := by
    simp
  have low : (0xFFFF : Word).toNat = 2 ^ 16 - 1 := by decide
  have bound := limit.isLt
  have value : ((limit >>> 16).setWidth 4 ++ (limit &&& 0xFFFF).setWidth 16 : BitVec 20).toNat = limit.toNat % 2 ^ 20 := by
    simp only [BitVec.toNat_append, BitVec.toNat_setWidth, BitVec.toNat_ushiftRight, BitVec.toNat_and, low,
      Nat.and_two_pow_sub_one_eq_mod, Nat.shiftRight_eq_div_pow]
    rw [← Nat.shiftLeft_add_eq_or_of_lt (by omega), Nat.shiftLeft_eq]
    omega
  simp only [segmentLimit, high, flag, value]

/-- The kernel's segments end at 256 MB, far below the address that timer_callback reads. -/
theorem fetch_beyond (gdt : Nat → GdtEntry) (mapped : Word → Bool) (s : Machine Board) :
    fetch (initGdt gdt) mapped s 0xFFFFFFFF = .error (13, 0) := by
  have limit : segmentLimit (initGdt gdt (dataSelector / 8)).limitLow (initGdt gdt (dataSelector / 8)).granularity =
      65535 * 4096 + 4095 := segmentLimit_gate 0xFFFF 0xCF
  have address : (0xFFFFFFFF : Word).toNat = 4294967295 := rfl
  have beyond : ¬ (0xFFFFFFFF : Word).toNat + 3 ≤ 65535 * 4096 + 4095 := by omega
  simp only [fetch, limit, if_neg beyond]

/-- All lines but the timer's are masked, and nothing is in service. -/
structure TimerOnly (l : Lines) (pending : Bool) : Prop where
  first : l.first = 0x20
  masked : ∀ n, l.masked n = decide (n ≠ 0)
  idle : l.serving = []
  pending : l.requested 0 = pending

theorem TimerOnly.next {l : Lines} {pending : Bool} (only : TimerOnly l pending) :
    l.next = if pending then some 0 else none := by
  have free : ∀ n, l.free n = (decide (n = 0) && pending) := by
    intro n
    by_cases timer : n = 0
    · simp [Lines.free, only.masked, only.idle, timer, only.pending]
    · simp [Lines.free, only.masked, timer]
  have later : ∀ start n, 0 < start → (List.range' start n).find? l.free = none := by
    intro start n positive
    rw [List.find?_eq_none]
    intro k member
    have inside := List.mem_range'_1.mp member
    have other : k ≠ 0 := by omega
    simp [free, other]
  have first : (List.range 2).find? l.free = if pending then some 0 else none := by
    cases pending with
    | false => simp [List.find?_eq_none, free]
    | true => simp [List.range_succ_eq_map, free]
  rw [Lines.next, first, later 8 8 (by decide), later 3 5 (by decide), Option.or_none, Option.or_none]

/- The ports of the PIT. -/
theorem outb_control (d : Pc) (v : Octet) : d.outb 0x43 v = { d with pit := d.pit.command v } := rfl

theorem outb_counter (d : Pc) (v : Octet) : d.outb 0x40 v = { d with pit := d.pit.data v } := rfl

theorem represents_pit {d : Pc} {l : Lines} (represents : Represents d l) (pit : Pit) : Represents { d with pit := pit } l :=
  ⟨represents.ready, represents.manual, represents.cascade, represents.bases, represents.requests, represents.masks,
    represents.services, represents.nested, represents.real⟩

/- After the control word the counter gets its low and its high byte. -/
theorem pit_reload (p : Pit) (low high : Octet) : (((p.command 0x36).data low).data high).reload = high ++ low := by
  simp [Pit.command, Pit.data]

theorem halves_append (w : Word) : (w >>> 8 &&& 0xFF).setWidth 8 ++ (w &&& 0xFF).setWidth 8 = w.setWidth 16 := by
  ext n hn
  rw [BitVec.getElem_append]
  split
  · rename_i low
    interval_cases n <;> simp
  · rename_i high
    interval_cases n <;> simp at high ⊢

/-- init_timer registers the callback and sets the counter to the divisor's low 16 bits, and touches nothing else. -/
theorem initTimer_exec (timerCallback : Word) {frequency : Word} (next : SetUp) (handlers : Handlers) (d : Pc)
    (nonzero : frequency ≠ 0) : ∃ pit, (SetUp.initTimer timerCallback frequency next).exec handlers d =
      next.exec (Function.update handlers 32 timerCallback) { d with pit } ∧ pit.reload = (1193180 / frequency).setWidth 16 := by
  have registered : registerIntHandler handlers 32 timerCallback = some (Function.update handlers 32 timerCallback) := rfl
  refine ⟨_, ?_, (pit_reload d.pit _ _).trans (halves_append _)⟩
  simp only [SetUp.initTimer, SetUp.exec, registered, if_neg nonzero, outb_control, outb_counter, Option.bind_eq_bind,
    Option.bind_some]

theorem pit_kept (irqLine : Octet) (d : Pc) : (irqClearMask irqLine d).pit = d.pit := by
  rw [irqClearMask, maskPort]
  split
  · rename_i port line same
    split at same
    · cases same
      rfl
    · cases same
      rfl

/-- The kernel's set-up leaves the timer's line alone open, with its handler in place. -/
theorem startClock_ok {symbols : Symbols} {handlers₀ handlers : Handlers} {d₀ d : Pc}
    (started : (startClock symbols).exec (preInitIdt handlers₀) d₀ = some (handlers, d)) :
    handlers 32 = symbols.timerCallbackAt ∧ handlers 13 = 0 ∧ d.pit.reload = BitVec.ofNat 16 (1193180 / 50) ∧
      ∃ l, Represents d l ∧ TimerOnly l false := by
  have disabled := picDisable_represents (picRemap_represents 0x20 0x28 d₀ fun _ _ => rfl)
  generalize first : picDisable (picRemap 0x20 0x28 d₀) = d₁ at disabled
  have none : ∀ vector < 256, preInitIdt handlers₀ vector = 0 := fun vector small => preInitIdt_none _ small
  generalize preInitIdt handlers₀ = empty at started none
  obtain ⟨pit, result, reload⟩ := initTimer_exec symbols.timerCallbackAt (.irqClearMask 0 .done)
    (Function.update empty 14 symbols.pageFaultAt) d₁ (show (50 : Word) ≠ 0 by decide)
  have registered : registerIntHandler empty 14 symbols.pageFaultAt = some (Function.update empty 14 symbols.pageFaultAt) := rfl
  simp only [startClock, SetUp.exec, registered, Option.bind_eq_bind, Option.bind_some, SetUp.picRemap_exec,
    SetUp.picDisable_exec, first, result, SetUp.irqClearMask_exec] at started
  obtain ⟨rfl, rfl⟩ := Prod.mk.inj (Option.some.inj started)
  refine ⟨Function.update_self .., ?_, ?_, _, irqClearMask_represents (represents_pit disabled _) (by decide), ?_⟩
  · rw [Function.update_of_ne (by decide), Function.update_of_ne (by decide)]
    exact none 13 (by decide)
  · rw [pit_kept, reload]
    rfl
  · exact ⟨rfl, fun n => by simp, rfl, rfl⟩

/-- No interrupt comes back: none has a handler other than page_fault, or the master's lines are all masked. -/
def Shut (symbols : Symbols) (handlers : Handlers) (d : Pc) : Prop :=
  (∀ vector < 256, handlers vector = 0 ∨ handlers vector = symbols.pageFaultAt) ∨ d.master.mask = 0xFF

/-- So it is before each access, and what is read is a mask. -/
def SetUp.Guarded (symbols : Symbols) : SetUp → Handlers → Pc → Prop
  | .done, _, _ => True
  | .fault, _, _ => False
  | .register num handler next, handlers, d =>
    Shut symbols handlers d ∧ ∀ registered ∈ registerIntHandler handlers num handler, next.Guarded symbols registered d
  | .outb port v next, handlers, d => Shut symbols handlers d ∧ next.Guarded symbols handlers (d.outb port v)
  | .inb port next, handlers, d =>
    Shut symbols handlers d ∧ (port = pic1Data ∨ port = pic2Data) ∧ (next (d.inb port)).Guarded symbols handlers d

theorem SetUp.Guarded.shut {symbols : Symbols} {todo : SetUp} {handlers : Handlers} {d : Pc}
    (guarded : todo.Guarded symbols handlers d) (more : todo ≠ .done) : Shut symbols handlers d := by
  cases todo with
  | done => exact absurd rfl more
  | fault => exact guarded.elim
  | register => exact guarded.1
  | outb => exact guarded.1
  | inb => exact guarded.1

theorem startClock_guarded (symbols : Symbols) (handlers₀ : Handlers) (d₀ : Pc) :
    (startClock symbols).Guarded symbols (preInitIdt handlers₀) d₀ := by
  have empty : ∀ d, Shut symbols (preInitIdt handlers₀) d := fun _ => .inl fun vector small => .inl (preInitIdt_none _ small)
  refine ⟨empty _, fun handlers registered => ?_⟩
  cases Option.some.inj registered
  have shut : ∀ d, Shut symbols (Function.update (preInitIdt handlers₀) 14 symbols.pageFaultAt) d := by
    refine fun _ => .inl fun vector small => ?_
    by_cases fault : vector = 14
    · exact .inr (fault ▸ Function.update_self ..)
    · exact .inl ((Function.update_of_ne fault _ _).trans (preInitIdt_none _ small))
  -- PIC_remap, PIC_disable and the start of init_timer come with no other handler, the rest with all lines masked.
  refine ⟨shut _, .inl rfl, shut _, .inr rfl, shut _, shut _, shut _, shut _, shut _, shut _, shut _, shut _, shut _, shut _,
    shut _, shut _, shut _, shut _, shut _, shut _, shut _, shut _, shut _, shut _, shut _, fun handlers registered => ?_⟩
  exact ⟨.inr rfl, .inr rfl, .inr rfl, .inr rfl, .inl rfl, .inr rfl, trivial⟩

theorem masked_acknowledge {d : Pc} (masked : d.master.mask = 0xFF) : d.acknowledge = none := by
  have ones : ∀ n < 8, (0xFF : Octet).getLsbD n = true := by decide
  have none : d.master.pending d.asked = none := by
    rw [Chip.pending, List.find?_eq_none]
    intro n member
    rw [masked, ones n (List.mem_range.mp member)]
    simp
  rw [Pc.acknowledge, none]

/-- What the clock says is what tick counts, and the timer's line is the only one that can interrupt. -/
structure Ticking (tick : Word) (s : Machine Board) (c : Clock) : Prop where
  counted : load s.mem tick = BitVec.ofNat 32 c.ticks
  few : c.ticks < 250
  reload : s.dev.pc.pit.reload = BitVec.ofNat 16 (1193180 / 50)
  lines : ∃ l, Represents s.dev.pc l ∧ TimerOnly l c.pending

/-- The stack and tick are apart, and the linker has put the stubs where the table points to. -/
structure Placed (bottom top : Nat) (tick : Word) (isrStubTable : Nat → Word) (code : Word → Option (List Instr)) : Prop where
  stubs : ∀ vector < 256, code (isrStubTable vector) = some (isr vector)
  stack : top ≤ 4294967296
  whole : tick.toNat + 4 ≤ 4294967296
  apart : tick.toNat + 4 ≤ bottom ∨ top ≤ tick.toNat

/- tick's bytes. -/
def InTick (tick x : Word) : Prop := tick.toNat ≤ x.toNat ∧ x.toNat < tick.toNat + 4

section Tick

variable (floats : Libc.Floats) (rodata : Nat → Byte) (gdt : Nat → GdtEntry) (mapped : Word → Bool) {tick : Word} (frame : Nat)

theorem callback_cdecl (bottom : Nat) (whole : tick.toNat + 4 ≤ 4294967296) (regs : CpuState) :
    Cdecl bottom frame (InTick tick) (timerCallback floats rodata (initGdt gdt) mapped tick frame regs) := by
  intro s t _ done
  simp only [timerCallback, fetch_beyond] at done
  split at done
  · cases done
  · cases Except.ok.inj done
    refine ⟨rfl, fun x shown _ => store_outside _ _ whole ?_⟩
    rw [InTick] at shown
    omega

/-- A tick, and the last tick. -/
theorem callback_ticks {n : Nat} (regs : CpuState) {s : Machine Board} (few : n < 250)
    (counted : load s.mem tick = BitVec.ofNat 32 n) :
    (n + 1 < 250 → timerCallback floats rodata (initGdt gdt) mapped tick frame regs s =
      .ok { s with mem := store s.mem tick (BitVec.ofNat 32 (n + 1))
                   dev := { s.dev with pc := picSendEoi ((regs.intNo - 32).setWidth 8) s.dev.pc } }) ∧
    (n + 1 = 250 → ∃ t : Machine Board, t.esp = s.esp - BitVec.ofNat 32 frame ∧
      timerCallback floats rodata (initGdt gdt) mapped tick frame regs s = .error (.fault 13 (some 0) t)) := by
  have next : load s.mem tick + 1 = BitVec.ofNat 32 (n + 1) := by
    rw [counted, BitVec.ofNat_add]
    rfl
  have remainder : (BitVec.ofNat 32 (n + 1) % 250 : Word) = 0 ↔ n + 1 = 250 := by
    have bound : (250 : Word).toNat = 250 := rfl
    have zero : (0 : Word).toNat = 0 := rfl
    have small : (n + 1) % 2 ^ 32 = n + 1 := Nat.mod_eq_of_lt (by omega)
    rw [← BitVec.toNat_inj, BitVec.toNat_umod, BitVec.toNat_ofNat, bound, zero, small]
    omega
  refine ⟨fun more => ?_, fun last => ?_⟩
  · have going : ¬ (BitVec.ofNat 32 (n + 1) % 250 : Word) = 0 := by
      rw [remainder]
      omega
    simp only [timerCallback, next, load_store, if_neg going]
  · have ends := remainder.mpr last
    refine ⟨{ s with
      esp := s.esp - BitVec.ofNat 32 frame
      mem := store s.mem tick (BitVec.ofNat 32 (n + 1))
      dev := { s.dev with pc := picSendEoi ((regs.intNo - 32).setWidth 8) s.dev.pc } }, rfl, ?_⟩
    simp only [timerCallback, next, load_store, if_pos ends, fetch_beyond]

end Tick

theorem Placed.kept {bottom top : Nat} {tick : Word} {isrStubTable : Nat → Word} {code : Word → Option (List Instr)}
    (placed : Placed bottom top tick isrStubTable code) {m n : Memory} (esp : Word) (inside : esp.toNat ≤ top)
    (same : ∀ x : Word, x.toNat < bottom ∨ esp.toNat ≤ x.toNat → m x = n x) : load m tick = load n tick := by
  have whole := placed.whole
  have apart := placed.apart
  refine load_congr whole fun x low high => same x ?_
  omega

section Run

variable (floats : Libc.Floats) (rodata : Nat → Byte) (gdt : Nat → GdtEntry) (mapped : Word → Bool) {tick : Word} (frame : Nat)
  {symbols : Symbols} {handlers : Handlers} {isrStubTable : Nat → Word} (idt : Nat → IdtEntry)
  {code : Word → Option (List Instr)} (back : Word) (program : Machine Board → Except (Gone (Stop Board)) (Machine Board))
  {bottom top : Nat} (placed : Placed bottom top tick isrStubTable code) (present : handlers 32 = symbols.timerCallbackAt)
  (missing : handlers 13 = 0) {s : Machine Board} {c : Clock} (ticking : Ticking tick s c)

include ticking in
/-- Where the processor does not take interrupts, or the timer has not asked, nothing happens. -/
theorem interrupt_idle (idle : (s.eflags.getLsbD 9 && c.pending) = false) :
    boardStep floats rodata handlers (symbols.run floats rodata (initGdt gdt) mapped tick frame) (initIdt isrStubTable idt)
      code back program s .interrupt = .ok s := by
  obtain ⟨l, represents, only⟩ := ticking.lines
  simp only [boardStep]
  split
  · rename_i enabled
    have quiet : c.pending = false := by simpa [enabled] using idle
    have none : l.next = none := by rw [only.next, quiet]; rfl
    simp only [represents.acknowledge.1 none]
  · rfl

include ticking in
/-- Where it takes one the timer's line is served, and after its end of interrupt only the timer's line is open again. -/
theorem interrupt_taken (taken : (s.eflags.getLsbD 9 && c.pending) = true) : ∃ pc,
    boardStep floats rodata handlers (symbols.run floats rodata (initGdt gdt) mapped tick frame) (initIdt isrStubTable idt)
      code back program s .interrupt =
        interrupt floats rodata handlers (symbols.run floats rodata (initGdt gdt) mapped tick frame) (initIdt isrStubTable idt)
          code back 32 none { s with dev := { s.dev with pc } } ∧
    (picSendEoi 0 pc).pit = s.dev.pc.pit ∧ ∃ l, Represents (picSendEoi 0 pc) l ∧ TimerOnly l false := by
  obtain ⟨enabled, pending⟩ := (Bool.and_eq_true _ _).mp taken
  obtain ⟨l, represents, only⟩ := ticking.lines
  have chosen : l.next = some 0 := by rw [only.next, if_pos pending]
  obtain ⟨pc, acknowledged, pit, served⟩ := represents.acknowledge.2 0 chosen
  have vector : (l.vector 0).toNat = 32 := by
    rw [Lines.vector, if_pos (by decide), only.first]
    rfl
  have ended : Represents (picSendEoi 0 pc) { l.serve 0 with serving := l.serving } := picSendEoi_represents served rfl
  refine ⟨pc, ?_, pit, _, ended, only.first, only.masked, only.idle, by simp [Lines.serve]⟩
  simp only [boardStep, if_pos enabled, acknowledged, vector]

include placed present missing ticking

/-- The timer's interrupt ticks, until the last tick. -/
theorem interrupt_ticks (allowed : BoardEvent.Allowed bottom top frame s .interrupt)
    (taken : (s.eflags.getLsbD 9 && c.pending) = true) :
    (c.ticks + 1 < 250 → ∃ f, boardStep floats rodata handlers (symbols.run floats rodata (initGdt gdt) mapped tick frame)
      (initIdt isrStubTable idt) code back program s .interrupt = .ok f ∧ Alike bottom (InTick tick) s f ∧
        Ticking tick f ⟨c.ticks + 1, false⟩) ∧
    (c.ticks + 1 = 250 → ∃ t, boardStep floats rodata handlers (symbols.run floats rodata (initGdt gdt) mapped tick frame)
      (initIdt isrStubTable idt) code back program s .interrupt = .error (.fault (.fault 13 (some 0) t)) ∧
      interrupt floats rodata handlers (symbols.run floats rodata (initGdt gdt) mapped tick frame) (initIdt isrStubTable idt)
        code back 13 (some 0) t = .error (.fault (.hung (.ok (exceptionText 13))))) := by
  obtain ⟨room, inside⟩ := allowed
  obtain ⟨pc, step, pit, ended⟩ := interrupt_taken floats rodata gdt mapped frame idt back program ticking taken
  have deliverable : Deliverable bottom top frame { s with dev := { s.dev with pc := pc } } 32 none :=
    ⟨by decide, by decide, by simp only; omega, inside⟩
  have run : ∀ regs, symbols.run floats rodata (initGdt gdt) mapped tick frame (handlers 32) regs =
      timerCallback floats rodata (initGdt gdt) mapped tick frame regs := by
    intro regs
    funext t
    rw [present, Symbols.run, if_pos rfl]
  obtain ⟨t, entered, failed, returned⟩ := interrupt_handled floats rodata handlers
    (symbols.run floats rodata (initGdt gdt) mapped tick frame) idt back (placed.stubs 32 (by decide)) deliverable placed.stack
    (by rw [present]; exact symbols.present)
  have esp : t.esp.toNat + 60 = s.esp.toNat := entered.esp
  have counted : load t.mem tick = BitVec.ofNat 32 c.ticks := by
    rw [← ticking.counted]
    exact placed.kept s.esp (by omega) entered.mem
  obtain ⟨ticks, ends⟩ := callback_ticks floats rodata gdt mapped frame
    (interrupted { s with dev := { s.dev with pc := pc } } 32 none) ticking.few counted
  have irq : (((interrupted { s with dev := { s.dev with pc := pc } } 32 none).intNo - 32).setWidth 8 : Octet) = 0 := by
    simp only [interrupted]
    decide
  have apart : ∀ x, InTick tick x → x.toNat < bottom ∨ top ≤ x.toNat := by
    intro x here
    have away := placed.apart
    rw [InTick] at here
    omega
  have cdecl : Cdecl bottom frame (InTick tick) (timerCallback floats rodata (initGdt gdt) mapped tick frame
      (interrupted { s with dev := { s.dev with pc := pc } } 32 none)) :=
    callback_cdecl floats rodata gdt mapped frame bottom placed.whole _
  rw [step]
  refine ⟨fun more => ?_, fun last => ?_⟩
  · obtain ⟨f, done, alike, mem, dev⟩ := returned (InTick tick) apart (run _ ▸ cdecl) _ ((congrFun (run _) t).trans (ticks more))
    refine ⟨f, done, ⟨alike.regs, alike.esp, alike.eip, alike.cs, alike.eflags, alike.mem⟩, ?_, more, ?_, ?_⟩
    · rw [mem]
      exact load_store _ _ _
    · rw [dev, irq, entered.dev, ← ticking.reload, ← pit]
    · rw [dev, irq, entered.dev]
      exact ended
  · obtain ⟨u, height, fault⟩ := ends last
    refine ⟨u, failed _ ((congrFun (run _) t).trans fault), ?_⟩
    have bound : frame < 4294967296 := by
      have low := s.esp.isLt
      omega
    have lowered : u.esp.toNat = t.esp.toNat - frame := by
      rw [height, BitVec.toNat_sub, BitVec.toNat_ofNat]
      omega
    have again : Deliverable bottom top 0 u 13 (some 0) := ⟨by decide, by decide, by omega, by omega⟩
    exact interrupt_hangs floats rodata handlers _ idt back (placed.stubs 13 (by decide)) again placed.stack missing

/-- What a step does to the clock. -/
theorem boardStep_ticking {e : BoardEvent} {t : Machine Board} (allowed : BoardEvent.Allowed bottom top frame s e)
    (quiet : ∀ s t, program s = .ok t → t.dev.pc = s.dev.pc ∧ load t.mem tick = load s.mem tick)
    (returned : boardStep floats rodata handlers (symbols.run floats rodata (initGdt gdt) mapped tick frame)
      (initIdt isrStubTable idt) code back program s e = .ok t) : Ticking tick t (c.tell s e t) := by
  cases e with
  | program =>
    obtain ⟨pc, counted⟩ := quiet s t returned
    exact ⟨counted.trans ticking.counted, ticking.few, pc ▸ ticking.reload, pc ▸ ticking.lines⟩
  | raise line =>
    cases Except.ok.inj returned
    obtain ⟨l, represents, only⟩ := ticking.lines
    have raised := represents.raise allowed.1 allowed.2
    have reload : (s.dev.pc.raise line).pit.reload = BitVec.ofNat 16 (1193180 / 50) := by rw [raise_pit, ticking.reload]
    by_cases timer : line = 0
    · simp only [Clock.tell, if_pos timer]
      exact ⟨ticking.counted, ticking.few, reload, _, raised, only.first, only.masked, only.idle, by simp [Lines.raise, timer]⟩
    · simp only [Clock.tell, if_neg timer]
      refine ⟨ticking.counted, ticking.few, reload, _, raised, only.first, only.masked, only.idle, ?_⟩
      rw [← only.pending]
      exact Function.update_of_ne (Ne.symm timer) _ _
  | interrupt =>
    cases taken : s.eflags.getLsbD 9 && c.pending with
    | false =>
      cases returned.symm.trans (interrupt_idle floats rodata gdt mapped frame idt back program ticking taken)
      simpa only [Clock.tell, taken, Bool.false_eq_true, if_false] using ticking
    | true =>
      obtain ⟨more, last⟩ := interrupt_ticks floats rodata gdt mapped frame idt back program placed present missing
        ticking allowed taken
      simp only [Clock.tell, taken, if_true]
      rcases Nat.lt_or_eq_of_le (Nat.succ_le_of_lt ticking.few) with less | full
      · obtain ⟨f, done, -, next⟩ := more less
        cases returned.symm.trans done
        exact next
      · obtain ⟨_, failed, -⟩ := last full
        cases returned.symm.trans failed

end Run

section Boot

variable (floats : Libc.Floats) (rodata : Nat → Byte) (gdt : Nat → GdtEntry) (mapped : Word → Bool) {tick : Word} (frame : Nat)
  {symbols : Symbols} {isrStubTable : Nat → Word} (idt : Nat → IdtEntry) {code : Word → Option (List Instr)} (back : Word)
  (program : Machine Board → Except (Gone (Stop Board)) (Machine Board)) {bottom top : Nat}
  (placed : Placed bottom top tick isrStubTable code)
include placed

/-- Where no interrupt comes back, the processor looks for one and finds none. -/
theorem shut_interrupt {handlers : Handlers} {s t : Machine Board} (shut : Shut symbols handlers s.dev.pc)
    (room : bottom + 120 + frame ≤ s.esp.toNat)
    (returned : boardStep floats rodata handlers (symbols.run floats rodata (initGdt gdt) mapped tick frame)
      (initIdt isrStubTable idt) code back program s .interrupt = .ok t) : t = s := by
  simp only [boardStep] at returned
  split at returned
  · split at returned
    · rename_i vector pc taken
      rcases shut with missing | masked
      · have small := vector.isLt
        have deep : bottom + 60 ≤ ({ s with dev := { s.dev with pc := pc } } : Machine Board).esp.toNat := by
          simp only
          omega
        refine absurd returned (interrupt_lost floats rodata idt back (placed.stubs _ small) small deep
          (fun present state t u done => ?_) t)
        -- page_fault aborts.
        have fault := (missing _ small).resolve_left present
        rw [fault, Symbols.run, if_neg symbols.apart, if_pos rfl] at done
        cases done
      · rw [masked_acknowledge masked] at taken
        cases taken
    · exact (Except.ok.inj returned).symm
  · exact (Except.ok.inj returned).symm

/-- A set-up that is under way does what is left of it as if nothing had come between: d is what the devices
would be then. -/
structure Underway (symbols : Symbols) (tick : Word) (result : Option (Handlers × Pc)) (s : Booting) (d : Pc) : Prop where
  same : SameButAsking d s.machine.dev.pc
  rest : s.todo.exec s.handlers d = result
  guarded : s.todo.Guarded symbols s.handlers d
  zero : load s.machine.mem tick = 0

/-- What a step of the boot does to it. -/
theorem bootStep_underway {result : Option (Handlers × Pc)} {s t : Booting} {d : Pc} {e : BootEvent}
    (underway : Underway symbols tick result s d) (allowed : BootEvent.Allowed bottom top frame s e)
    (quiet : ∀ s t, program s = .ok t → t.dev.pc = s.dev.pc ∧ load t.mem tick = load s.mem tick)
    (returned : bootStep floats rodata (symbols.run floats rodata (initGdt gdt) mapped tick frame) (initIdt isrStubTable idt)
      code back program s e = .ok t) : ∃ d', Underway symbols tick result t d' := by
  obtain ⟨todo, handlers, machine⟩ := s
  obtain ⟨same, rest, guarded, zero⟩ := underway
  cases e with
  | setUp =>
    cases todo with
    | done => exact absurd rfl allowed
    | fault => cases returned
    | register num handler next =>
      obtain ⟨-, guarded⟩ := guarded
      simp only [bootStep] at returned
      simp only [SetUp.exec, Option.bind_eq_bind] at rest
      split at returned
      · rename_i registered found
        cases Except.ok.inj returned
        rw [found] at rest
        exact ⟨d, same, rest, guarded registered found, zero⟩
      · cases returned
    | outb port v next =>
      cases Except.ok.inj returned
      exact ⟨_, same.outb port v, rest, guarded.2, zero⟩
    | inb port next =>
      cases Except.ok.inj returned
      obtain ⟨-, isMask, guarded⟩ := guarded
      have read : machine.dev.pc.inb port = d.inb port := by
        rcases isMask with rfl | rfl
        · exact same.masks.1
        · exact same.masks.2
      rw [← read] at guarded
      refine ⟨d, same, ?_, guarded, zero⟩
      simp only [read]
      exact rest
  | board e =>
    obtain ⟨more, allowed⟩ := allowed
    obtain ⟨machine', stepped, rfl⟩ := map_ok.mp returned
    cases e with
    | program =>
      obtain ⟨pc, counted⟩ := quiet _ _ stepped
      exact ⟨d, pc ▸ same, rest, guarded, counted.trans zero⟩
    | raise line =>
      cases Except.ok.inj stepped
      exact ⟨d, same.raise allowed.2, rest, guarded, zero⟩
    | interrupt =>
      have shut := guarded.shut more
      cases shut_interrupt floats rodata gdt mapped frame idt back program placed (shut.imp_right same.masks.1.trans)
        allowed.1 stepped
      exact ⟨d, same, rest, guarded, zero⟩

/-- A run of the boot is under way to its end. -/
theorem boot_underway {handlers₀ : Handlers} {s₀ : Machine Board} {boot : List BootEvent} {s : Booting}
    (quiet : ∀ s t, program s = .ok t → t.dev.pc = s.dev.pc ∧ load t.mem tick = load s.mem tick)
    (zero : load s₀.mem tick = 0)
    (run : Run (bootStep floats rodata (symbols.run floats rodata (initGdt gdt) mapped tick frame) (initIdt isrStubTable idt)
      code back program) (BootEvent.Allowed bottom top frame) ⟨startClock symbols, preInitIdt handlers₀, s₀⟩ boot s) :
    ∃ d, Underway symbols tick ((startClock symbols).exec (preInitIdt handlers₀) s₀.dev.pc) s d := by
  have guarded := startClock_guarded symbols handlers₀ s₀.dev.pc
  -- The set-up stays folded.
  generalize startClock symbols = todo at run guarded ⊢
  generalize preInitIdt handlers₀ = empty at run guarded ⊢
  have initial : ∃ d, Underway symbols tick (todo.exec empty s₀.dev.pc) ⟨todo, empty, s₀⟩ d :=
    ⟨_, .refl _, rfl, guarded, zero⟩
  exact run.invariant (fun s => ∃ d, Underway symbols tick _ s d)
    (fun s e t ⟨_, underway⟩ allowed returned =>
      bootStep_underway floats rodata gdt mapped frame idt back program placed underway allowed quiet returned) initial

/-- An interrupt that comes back before the set-up has ended has not been taken. -/
theorem boot_interrupt {handlers₀ : Handlers} {s₀ : Machine Board} {boot : List BootEvent} {s t : Booting}
    (quiet : ∀ s t, program s = .ok t → t.dev.pc = s.dev.pc ∧ load t.mem tick = load s.mem tick)
    (zero : load s₀.mem tick = 0)
    (run : Run (bootStep floats rodata (symbols.run floats rodata (initGdt gdt) mapped tick frame) (initIdt isrStubTable idt)
      code back program) (BootEvent.Allowed bottom top frame) ⟨startClock symbols, preInitIdt handlers₀, s₀⟩ boot s)
    (allowed : BootEvent.Allowed bottom top frame s (.board .interrupt))
    (returned : bootStep floats rodata (symbols.run floats rodata (initGdt gdt) mapped tick frame) (initIdt isrStubTable idt)
      code back program s (.board .interrupt) = .ok t) : t = s := by
  obtain ⟨d, same, -, guarded, -⟩ := boot_underway floats rodata gdt mapped frame idt back program placed quiet zero run
  obtain ⟨more, room, -⟩ := allowed
  obtain ⟨machine, stepped, rfl⟩ := map_ok.mp returned
  rw [shut_interrupt floats rodata gdt mapped frame idt back program placed
    ((guarded.shut more).imp_right same.masks.1.trans) room stepped]

/-- The clock when the set-up has ended: the timer may have asked already. -/
theorem boot_ticking {handlers₀ : Handlers} {s₀ : Machine Board} {boot : List BootEvent} {s : Booting}
    (quiet : ∀ s t, program s = .ok t → t.dev.pc = s.dev.pc ∧ load t.mem tick = load s.mem tick)
    (zero : load s₀.mem tick = 0)
    (run : Run (bootStep floats rodata (symbols.run floats rodata (initGdt gdt) mapped tick frame) (initIdt isrStubTable idt)
      code back program) (BootEvent.Allowed bottom top frame) ⟨startClock symbols, preInitIdt handlers₀, s₀⟩ boot s)
    (ended : s.todo = .done) : s.handlers 32 = symbols.timerCallbackAt ∧ s.handlers 13 = 0 ∧
      Ticking tick s.machine ⟨0, s.machine.dev.pc.master.request.getLsbD 0⟩ := by
  obtain ⟨d, same, rest, -, zero⟩ := boot_underway floats rodata gdt mapped frame idt back program placed quiet zero run
  rw [ended, SetUp.exec] at rest
  obtain ⟨present, missing, reload, l, represents, only⟩ := startClock_ok rest.symm
  refine ⟨present, missing, zero, show 0 < 250 by decide, same.pit ▸ reload, _, same.represents represents, ?_⟩
  exact ⟨only.first, only.masked, only.idle, by simp [wide]⟩

end Boot

/-- The kernel's timer, from the sti of init_idt on, wherever between the set-up's accesses and afterwards devices ask
and the processor looks for interrupts, with code that runs in between and leaves the controllers and tick alone. No
interrupt that the set-up takes comes back. If the set-up comes to its end, then from there on tick counts the timer's
interrupts and nothing else interrupts, until at the 250th the machine prints its general protection fault and hangs. -/
theorem timer_stops_machine (floats : Libc.Floats) (rodata : Nat → Byte) (gdt : Nat → GdtEntry) (mapped : Word → Bool)
    {tick : Word} (frame : Nat) {symbols : Symbols} {handlers₀ : Handlers} {isrStubTable : Nat → Word}
    (idt : Nat → IdtEntry) {code : Word → Option (List Instr)} (back : Word)
    {program : Machine Board → Except (Gone (Stop Board)) (Machine Board)} {bottom top : Nat} {s₀ : Machine Board}
    {s : Booting} {boot : List BootEvent}
    (placed : Placed bottom top tick isrStubTable code) (zero : load s₀.mem tick = 0)
    (quiet : ∀ s t, program s = .ok t → t.dev.pc = s.dev.pc ∧ load t.mem tick = load s.mem tick)
    (setUp : Run (bootStep floats rodata (symbols.run floats rodata (initGdt gdt) mapped tick frame) (initIdt isrStubTable idt)
      code back program) (BootEvent.Allowed bottom top frame) ⟨startClock symbols, preInitIdt handlers₀, s₀⟩ boot s) :
    (∀ t, BootEvent.Allowed bottom top frame s (.board .interrupt) →
      bootStep floats rodata (symbols.run floats rodata (initGdt gdt) mapped tick frame) (initIdt isrStubTable idt)
        code back program s (.board .interrupt) = .ok t → t = s) ∧
    (s.todo = .done → ∀ (events : List BoardEvent) (s' : Machine Board) (c : Clock),
      let step := boardStep floats rodata s.handlers (symbols.run floats rodata (initGdt gdt) mapped tick frame)
        (initIdt isrStubTable idt) code back program
      Run (withGhost step Clock.tell) (fun s => BoardEvent.Allowed bottom top frame s.1)
        (s.machine, ⟨0, s.machine.dev.pc.master.request.getLsbD 0⟩) events (s', c) →
      Ticking tick s' c ∧ ((s'.eflags.getLsbD 9 && c.pending) = false → step s' .interrupt = .ok s') ∧
        ((s'.eflags.getLsbD 9 && c.pending) = true → BoardEvent.Allowed bottom top frame s' .interrupt →
          (c.ticks + 1 < 250 → ∃ f, step s' .interrupt = .ok f ∧ Alike bottom (InTick tick) s' f ∧
            Ticking tick f ⟨c.ticks + 1, false⟩) ∧
          (c.ticks + 1 = 250 → ∃ t, step s' .interrupt = .error (.fault (.fault 13 (some 0) t)) ∧
            interrupt floats rodata s.handlers (symbols.run floats rodata (initGdt gdt) mapped tick frame)
              (initIdt isrStubTable idt) code back 13 (some 0) t = .error (.fault (.hung (.ok (exceptionText 13))))))) := by
  refine ⟨fun t => boot_interrupt floats rodata gdt mapped frame idt back program placed quiet zero setUp, ?_⟩
  intro ended events s' c step run
  obtain ⟨present, missing, initial⟩ := boot_ticking floats rodata gdt mapped frame idt back program placed quiet zero setUp ended
  have ticking : Ticking tick s' c := by
    refine run.invariant (fun p => Ticking tick p.1 p.2) (fun p e q ticking allowed returned => ?_) initial
    obtain ⟨t, stepped, rfl⟩ := map_ok.mp returned
    exact boardStep_ticking floats rodata gdt mapped frame idt back program placed present missing ticking allowed quiet stepped
  exact ⟨ticking, interrupt_idle floats rodata gdt mapped frame idt back program ticking, fun taken allowed =>
    interrupt_ticks floats rodata gdt mapped frame idt back program placed present missing ticking allowed taken⟩

/-- With nothing in between the set-up comes to its end. -/
theorem boot_alone (floats : Libc.Floats) (rodata : Nat → Byte)
    (run : Word → CpuState → Machine Board → Except (Stop Board) (Machine Board)) (idt : Idt) (code : Word → Option (List Instr))
    (back : Word) (program : Machine Board → Except (Gone (Stop Board)) (Machine Board)) (bottom top frame : Nat)
    {todo : SetUp} {handlers registered : Handlers} {s : Machine Board} {d : Pc}
    (done : todo.exec handlers s.dev.pc = some (registered, d)) :
    ∃ boot, Run (bootStep floats rodata run idt code back program) (BootEvent.Allowed bottom top frame) ⟨todo, handlers, s⟩ boot
      ⟨.done, registered, { s with dev := { s.dev with pc := d } }⟩ := by
  induction todo generalizing handlers s with
  | done =>
    cases Option.some.inj done
    exact ⟨[], .nil _⟩
  | fault => cases done
  | register num handler next ih =>
    obtain ⟨more, first, rest⟩ := Option.bind_eq_some_iff.mp done
    obtain ⟨boot, run⟩ := ih rest
    refine ⟨.setUp :: boot, .cons (fun ended => by cases ended) ?_ run⟩
    simp only [bootStep, first]
  | outb port v next ih =>
    obtain ⟨boot, run⟩ := ih (s := { s with dev := { s.dev with pc := s.dev.pc.outb port v } }) done
    exact ⟨.setUp :: boot, .cons (fun ended => by cases ended) rfl run⟩
  | inb port next ih =>
    obtain ⟨boot, run⟩ := ih _ done
    exact ⟨.setUp :: boot, .cons (fun ended => by cases ended) rfl run⟩

/- A machine that takes interrupts. -/
def idleBoard (pc : Pc) : Machine Board := ⟨⟨1, 2, 3, 4, 5, 6, 7⟩, 0x103000, 0x200000, 8, 0x202, 0, fun _ => 0, ⟨pc, []⟩⟩

/- The first tick, of a kernel whose tick is at 0x1000. -/
theorem timer_stops_machine_first :
    let floats : Libc.Floats := fun _ _ _ _ _ => .error .argument
    let symbols : Symbols := ⟨0x300000, 0x300100, by decide, by decide⟩
    let gdt : Nat → GdtEntry := fun _ => ⟨0, 0, 0, 0, 0, 0⟩
    let d₀ : Pc := ⟨⟨0xFF, 0xFF, 0xB8, 8, 0, 0, .icw2 true true, true⟩, ⟨0, 0, 0x8F, 0x70, 0, 0, .ready, false⟩, ⟨0, none, 0⟩⟩
    let run := symbols.run floats Libc.zeros (initGdt gdt) (fun _ => true) 0x1000 64
    let idt := initIdt (BitVec.ofNat 32) fun _ => descriptor 0 0
    ∃ boot handlers d f, Run (bootStep floats Libc.zeros run idt linkedCode 0x400000 .ok)
        (BootEvent.Allowed 0x100000 0x104000 64) ⟨startClock symbols, preInitIdt fun _ => 7, idleBoard d₀⟩ boot
        ⟨.done, handlers, idleBoard d⟩ ∧
      boardStep floats Libc.zeros handlers run idt linkedCode 0x400000 .ok (idleBoard (d.raise 0)) .interrupt = .ok f ∧
      Ticking 0x1000 f ⟨1, false⟩ := by
  intro floats symbols gdt d₀ run idt
  obtain ⟨⟨handlers, d⟩, started⟩ := Option.isSome_iff_exists.mp
    (rfl : ((startClock symbols).exec (preInitIdt fun _ => 7) d₀).isSome = true)
  obtain ⟨boot, setUp⟩ := boot_alone floats Libc.zeros run idt linkedCode 0x400000 .ok 0x100000 0x104000 64 (s := idleBoard d₀)
    started
  have placed : Placed 0x100000 0x104000 0x1000 (BitVec.ofNat 32) linkedCode :=
    ⟨linkedCode_isr, by decide, by decide, .inl (by decide)⟩
  have zero : load (idleBoard d₀).mem 0x1000 = 0 := (by decide : load (fun _ => 0) 0x1000 = 0)
  have quiet : ∀ s t : Machine Board, (Except.ok s : Except (Gone (Stop Board)) (Machine Board)) = .ok t →
      t.dev.pc = s.dev.pc ∧ load t.mem 0x1000 = load s.mem 0x1000 := by
    intro s t same
    cases Except.ok.inj same
    exact ⟨rfl, rfl⟩
  have ticks : Run (withGhost (boardStep floats Libc.zeros handlers run idt linkedCode 0x400000 .ok) Clock.tell)
      (fun s => BoardEvent.Allowed 0x100000 0x104000 64 s.1) (idleBoard d, ⟨0, d.master.request.getLsbD 0⟩)
      [.program, .raise 0] (idleBoard (d.raise 0), ⟨0, true⟩) :=
    .cons trivial rfl (.cons ⟨by decide, by decide⟩ rfl (.nil _))
  obtain ⟨-, on⟩ := timer_stops_machine floats Libc.zeros gdt (fun _ => true) 64 (fun _ => descriptor 0 0) 0x400000 placed
    zero quiet setUp
  obtain ⟨-, -, taken⟩ := on rfl _ _ _ ticks
  have room : 0x100000 + 120 + 64 ≤ (0x103000 : Word).toNat ∧ (0x103000 : Word).toNat + 8 ≤ 0x104000 := by decide
  have enabled : (0x202 : Word).getLsbD 9 && true := by decide
  obtain ⟨f, done, -, ticking⟩ := (taken enabled room).1 (by decide)
  exact ⟨boot, handlers, d, f, setUp, done, ticking⟩

end Icix
