import Icix.Library.Ia32
import Icix.Library.Lifting
import Icix.Libc.Text

/-! Interrupts: the stubs of interrupt.S, the table that init_idt sets up, and the handlers of isr.c. -/
namespace Icix
open Bytes Ia32 Runs Lifting

/- cpu_state_t. The fields are in the order of their addresses. -/
structure CpuState where
  cr2 : Word
  edi : Word
  esi : Word
  ebp : Word
  esp : Word
  ebx : Word
  edx : Word
  ecx : Word
  eax : Word
  intNo : Word
  errCode : Word
  eip : Word
  cs : Word
  eflags : Word
  useresp : Word
  ss : Word

variable {δ : Type}

/- The argument of a function that has been called, above its return address. -/
def CpuState.argument (s : Machine δ) : CpuState where
  cr2 := s.peek 4
  edi := s.peek 8
  esi := s.peek 12
  ebp := s.peek 16
  esp := s.peek 20
  ebx := s.peek 24
  edx := s.peek 28
  ecx := s.peek 32
  eax := s.peek 36
  intNo := s.peek 40
  errCode := s.peek 44
  eip := s.peek 48
  cs := s.peek 52
  eflags := s.peek 56
  useresp := s.peek 60
  ss := s.peek 64

def isrCommonStub : List Instr := [.pushal, .movCr2Eax, .pushEax, .call, .addEsp 4, .popal, .addEsp 8, .iret]

/- Both stubs end with a jump to the common one. -/
def isrErrStub (idx : Nat) : List Instr := .push (BitVec.ofNat 32 idx) :: isrCommonStub

def isrNoErrStub (idx : Nat) : List Instr := .push 0 :: .push (BitVec.ofNat 32 idx) :: isrCommonStub

/- The vectors of isr_err_stub. -/
def errStubs : List Nat := [8, 10, 11, 12, 13, 14, 17, 30]

def isr (idx : Nat) : List Instr := if idx ∈ errStubs then isrErrStub idx else isrNoErrStub idx

structure IdtEntry where
  isrLow : BitVec 16
  kernelCs : BitVec 16
  reserved : Byte
  attributes : Byte
  isrHigh : BitVec 16

/- idt_ptr with the table that its base points to. -/
structure Idt where
  limit : BitVec 16
  entries : Nat → IdtEntry

/- What idt_set_descriptor stores. -/
def descriptor (isr : Word) (flags : Byte) : IdtEntry where
  isrLow := (isr &&& 0xFFFF).setWidth 16
  kernelCs := 0x08
  attributes := flags
  isrHigh := (isr >>> 16).setWidth 16
  reserved := 0

def idtSetDescriptor (idt : Nat → IdtEntry) (vector : Byte) (isr : Word) (flags : Byte) : Nat → IdtEntry :=
  Function.update idt vector.toNat (descriptor isr flags)

def initIdt (isrStubTable : Nat → Word) (idt : Nat → IdtEntry) : Idt where
  limit := 8 * 256 - 1
  entries := (List.range 256).foldl
    (fun idt vector => idtSetDescriptor idt (BitVec.ofNat 8 vector) (isrStubTable vector) 0x8E) idt

/- A function pointer is an address, and 0 is none. -/
abbrev Handlers := Nat → Word

def preInitIdt (handlers : Handlers) : Handlers :=
  (List.range 256).foldl (fun handlers i => Function.update handlers i 0) handlers

/-- How an interrupt ends that does not come back: with a fault there is another exception in the handler. -/
inductive Stop (δ : Type) where
  | outOfBounds
  | hung (printed : Except Libc.Stray (List Byte))
  | fault (vector : Nat) (error : Option Word) (s : Machine δ)

def registerIntHandler (handlers : Handlers) (num handler : Word) : Option Handlers :=
  if num.toNat < 256 then some (Function.update handlers num.toNat handler) else none

section Interrupt

variable (floats : Libc.Floats) (rodata : Nat → Byte) (handlers : Handlers)
  (run : Word → CpuState → Machine δ → Except (Stop δ) (Machine δ))

/- run is what the function at an address does. -/
def interruptHandler (s : Machine δ) : Except (Stop δ) (Machine δ) :=
  let state := CpuState.argument s
  if state.intNo.toNat < 256 then
    if handlers state.intNo.toNat ≠ 0 then run (handlers state.intNo.toNat) state s
    else .error (.hung ((Libc.vprintf floats (Libc.bytes "Exception occurred with no. %d\n") [state.intNo] rodata).map
      Libc.Printing.out))
  else .error .outOfBounds

/- What the processor does with an interrupt. It runs the code that the gate says; code is what the
linker has put at an address, back is the address after the call in isr_common_stub. -/
def interrupt (idt : Idt) (code : Word → Option (List Instr)) (back : Word) (vector : Nat) (error : Option Word)
    (s : Machine δ) : Except (Gone (Stop δ)) (Machine δ) :=
  let gate := idt.entries vector
  if 8 * vector + 7 ≤ idt.limit.toNat ∧ IsInterruptGate gate.attributes then
    match code (gateOffset gate.isrLow gate.isrHigh) with
    | some stub => exec (interruptHandler floats rodata handlers run) back stub
        (s.deliver (gate.kernelCs.setWidth 32) (gateOffset gate.isrLow gate.isrHigh) error)
    | none => .error .lost
  else .error .lost

end Interrupt

theorem foldl_update {α : Type} {step : (Nat → α) → Nat → Nat → α} {g : Nat → α} {n : Nat}
    (each : ∀ f i, i < n → step f i = Function.update f i (g i)) (f : Nat → α) (v : Nat) :
    (List.range n).foldl step f v = if v < n then g v else f v := by
  induction n with
  | zero => simp
  | succ n ih =>
    have rest := ih fun f i less => each f i (Nat.lt_succ_of_lt less)
    rw [List.range_succ, List.foldl_append, List.foldl_cons, List.foldl_nil, each _ n (Nat.lt_succ_self n)]
    by_cases last : v = n
    · simp [last]
    · have same : v < n + 1 ↔ v < n := by omega
      simp only [Function.update_of_ne last, rest, same]

theorem preInitIdt_none (handlers : Handlers) {vector : Nat} (inside : vector < 256) : preInitIdt handlers vector = 0 := by
  rw [preInitIdt, foldl_update (g := fun _ => 0) fun _ _ _ => rfl, if_pos inside]

/-- The gate of a vector leads to its stub. -/
theorem initIdt_gate (isrStubTable : Nat → Word) (idt : Nat → IdtEntry) {vector : Nat} (inside : vector < 256) :
    8 * vector + 7 ≤ (initIdt isrStubTable idt).limit.toNat ∧
      (initIdt isrStubTable idt).entries vector = descriptor (isrStubTable vector) 0x8E := by
  have limit : (initIdt isrStubTable idt).limit.toNat = 2047 := rfl
  have index : ∀ i < 256, (BitVec.ofNat 8 i).toNat = i := by
    intro i less
    rw [BitVec.toNat_ofNat]
    omega
  refine ⟨by omega, ?_⟩
  simp only [initIdt]
  rw [foldl_update (g := fun i => descriptor (isrStubTable i) 0x8E), if_pos inside]
  intro f i less
  rw [idtSetDescriptor, index i less]

/- What the handler of a vector gets for its argument. -/
def interrupted (s : Machine δ) (vector : Nat) (error : Option Word) : CpuState where
  cr2 := s.cr2
  edi := s.regs.edi
  esi := s.regs.esi
  ebp := s.regs.ebp
  esp := s.esp - 20
  ebx := s.regs.ebx
  edx := s.regs.edx
  ecx := s.regs.ecx
  eax := s.regs.eax
  intNo := BitVec.ofNat 32 vector
  errCode := error.getD 0
  eip := s.eip
  cs := s.cs
  eflags := s.eflags
  useresp := s.peek 0
  ss := s.peek 4

/- The words of it that are pushed. -/
def CpuState.pushed (c : CpuState) : List Word :=
  [c.cr2, c.edi, c.esi, c.ebp, c.esp, c.ebx, c.edx, c.ecx, c.eax, c.intNo, c.errCode, c.eip, c.cs, c.eflags]

/-- There are 60 bytes of stack left and a handler's frame, and what the processor pushes is what
the vector's stub expects. -/
structure Deliverable (bottom top frame : Nat) (s : Machine δ) (vector : Nat) (error : Option Word) : Prop where
  small : vector < 256
  expected : error.isSome = decide (vector ∈ errStubs)
  room : bottom + 60 + frame ≤ s.esp.toNat
  inside : s.esp.toNat + 8 ≤ top

section Stub

variable {bottom top frame : Nat} {s : Machine δ} {vector : Nat} {error : Option Word}

/-- What both kinds of stubs do from where they meet up to the call. -/
theorem isr_common {met : Machine δ} {ws : List Word} (stacked : Stacked bottom (fun _ => False) s met ws)
    (room : bottom + 36 ≤ met.esp.toNat) :
    ∃ t, Stacked bottom (fun _ => False) s t ([met.cr2, met.regs.edi, met.regs.esi, met.regs.ebp, met.esp, met.regs.ebx,
        met.regs.edx, met.regs.ecx, met.regs.eax] ++ ws) ∧ t.dev = met.dev ∧
      ∀ body back, exec (ε := Stop δ) body back isrCommonStub met =
        t.call body back >>= exec body back [.addEsp 4, .popal, .addEsp 8, .iret] := by
  have saved := stacked.pushes [met.regs.eax, met.regs.ecx, met.regs.edx, met.regs.ebx, met.esp, met.regs.ebp, met.regs.esi,
    met.regs.edi] (by simp only [List.length_cons, List.length_nil]; omega)
  have height := saved.esp
  have before := stacked.esp
  simp only [List.length_append, List.length_reverse, List.length_cons, List.length_nil] at height
  have full := saved.push met.cr2 (by omega)
  let called : Machine δ := { met.pushal.push met.cr2 with regs := { met.regs with eax := met.cr2 } }
  refine ⟨called, ⟨full.esp, full.words, full.outside⟩, ?_, fun body back => ?_⟩
  · simp only [called, Machine.push, Machine.pushal, pushes_dev]
  · simp only [isrCommonStub, exec, called, Machine.pushal, pushes_regs, pushes_cr2, Machine.push]

variable (deliverable : Deliverable bottom top frame s vector error)
include deliverable

/-- The stub up to its call. -/
theorem isr_entry (selector offset : Word) :
    ∃ t, Stacked bottom (fun _ => False) s t (interrupted s vector error).pushed ∧ t.dev = s.dev ∧
      ∀ body back, exec body back (isr vector) (s.deliver selector offset error) =
        t.call body back >>= exec (ε := Stop δ) body back [.addEsp 4, .popal, .addEsp 8, .iret] := by
  obtain ⟨_, expected, room, _⟩ := deliverable
  have start : Stacked bottom (fun _ => False) s s [] := .start s
  have frame := start.pushes [s.eflags, s.cs, s.eip, error.getD 0, BitVec.ofNat 32 vector]
    (by simp only [List.length_cons, List.length_nil]; omega)
  -- The machine where the two kinds of stubs meet.
  let met : Machine δ := { s.pushes [s.eflags, s.cs, s.eip, error.getD 0, BitVec.ofNat 32 vector] with
    cs := selector, eip := offset, eflags := s.eflags &&& ~~~0x34300 }
  have stacked : Stacked bottom (fun _ => False) s met _ := ⟨frame.esp, frame.words, frame.outside⟩
  have height := stacked.esp
  simp only [List.reverse_cons, List.reverse_nil, List.nil_append, List.cons_append, List.length_cons, List.length_nil] at height
  have top : met.esp = s.esp - 20 := by
    change s.esp - 4 - 4 - 4 - 4 - 4 = s.esp - 20
    simp only [BitVec.sub_sub]
    rfl
  obtain ⟨called, full, dev, common⟩ := isr_common stacked (by omega)
  have regs : met.regs = s.regs := pushes_regs s _
  have cr2 : met.cr2 = s.cr2 := pushes_cr2 s _
  rw [top, regs, cr2] at full
  refine ⟨called, full, dev, fun body back => ?_⟩
  rw [← common]
  cases error with
  | none =>
    have plain : vector ∉ errStubs := by simpa using expected
    rw [isr, if_neg plain]
    rfl
  | some e =>
    have pushes : vector ∈ errStubs := by simpa using expected
    rw [isr, if_pos pushes]
    rfl

omit deliverable in
/-- The stub from the return of its call on. -/
theorem isr_exit {hidden : Word → Prop} {t : Machine δ} (stacked : Stacked bottom hidden s t (interrupted s vector error).pushed)
    (body : Machine δ → Except (Stop δ) (Machine δ)) (back : Word) :
    ∃ f, exec body back [.addEsp 4, .popal, .addEsp 8, .iret] t = .ok f ∧ Alike bottom hidden s f ∧ f.mem = t.mem ∧
      f.dev = t.dev := by
  have registers := stacked.drop [_] rfl
  have edi : (t.drop 4).peek 0 = s.regs.edi := registers.peek [] rfl
  have esi : (t.drop 4).peek 4 = s.regs.esi := registers.peek [_] rfl
  have ebp : (t.drop 4).peek 8 = s.regs.ebp := registers.peek [_, _] rfl
  have ebx : (t.drop 4).peek 16 = s.regs.ebx := registers.peek [_, _, _, _] rfl
  have edx : (t.drop 4).peek 20 = s.regs.edx := registers.peek [_, _, _, _, _] rfl
  have ecx : (t.drop 4).peek 24 = s.regs.ecx := registers.peek [_, _, _, _, _, _] rfl
  have eax : (t.drop 4).peek 28 = s.regs.eax := registers.peek [_, _, _, _, _, _, _] rfl
  have regs : (t.drop 4).popal.regs = s.regs := by simp only [Machine.popal, edi, esi, ebp, ebx, edx, ecx, eax]
  have numbers := registers.drop [_, _, _, _, _, _, _, _] rfl
  have state := numbers.drop [_, _] rfl
  have last := state.drop [_, _, _] rfl
  exact ⟨_, rfl, ⟨regs, BitVec.eq_of_toNat_eq last.esp, state.peek [] rfl, state.peek [_] rfl, state.peek [_, _] rfl,
    last.outside⟩, rfl, rfl⟩

/-- What has been pushed is the argument. -/
theorem argument_eq (limit : top ≤ 4294967296) {t : Machine δ} {back : Word}
    (stacked : Stacked bottom (fun _ => False) s t (back :: (interrupted s vector error).pushed)) :
    CpuState.argument t = interrupted s vector error := by
  have inside := deliverable.inside
  have useresp := stacked.peek_base 0 (by omega) (fun _ _ => id)
  have ss := stacked.peek_base 4 (by omega) (fun _ _ => id)
  have cr2 : t.peek 4 = s.cr2 := stacked.peek [_] rfl
  have edi : t.peek 8 = s.regs.edi := stacked.peek [_, _] rfl
  have esi : t.peek 12 = s.regs.esi := stacked.peek [_, _, _] rfl
  have ebp : t.peek 16 = s.regs.ebp := stacked.peek [_, _, _, _] rfl
  have esp : t.peek 20 = s.esp - 20 := stacked.peek [_, _, _, _, _] rfl
  have ebx : t.peek 24 = s.regs.ebx := stacked.peek [_, _, _, _, _, _] rfl
  have edx : t.peek 28 = s.regs.edx := stacked.peek [_, _, _, _, _, _, _] rfl
  have ecx : t.peek 32 = s.regs.ecx := stacked.peek [_, _, _, _, _, _, _, _] rfl
  have eax : t.peek 36 = s.regs.eax := stacked.peek [_, _, _, _, _, _, _, _, _] rfl
  have intNo : t.peek 40 = BitVec.ofNat 32 vector := stacked.peek [_, _, _, _, _, _, _, _, _, _] rfl
  have errCode : t.peek 44 = error.getD 0 := stacked.peek [_, _, _, _, _, _, _, _, _, _, _] rfl
  have eip : t.peek 48 = s.eip := stacked.peek [_, _, _, _, _, _, _, _, _, _, _, _] rfl
  have cs : t.peek 52 = s.cs := stacked.peek [_, _, _, _, _, _, _, _, _, _, _, _, _] rfl
  have eflags : t.peek 56 = s.eflags := stacked.peek [_, _, _, _, _, _, _, _, _, _, _, _, _, _] rfl
  change t.peek 60 = s.peek 0 at useresp
  change t.peek 64 = s.peek 4 at ss
  simp only [CpuState.argument, interrupted, cr2, edi, esi, ebp, esp, ebx, edx, ecx, eax, intNo, errCode, eip, cs, eflags,
    useresp, ss]

end Stub

theorem intNo_index {bottom top frame : Nat} {s : Machine δ} {vector : Nat} {error : Option Word}
    (deliverable : Deliverable bottom top frame s vector error) : (interrupted s vector error).intNo.toNat = vector := by
  have small := deliverable.small
  simp only [interrupted, BitVec.toNat_ofNat]
  omega

/- The last handler that has been registered for a vector. -/
def lastRegistered (calls : List (Word × Word)) (vector : Nat) : Word :=
  calls.foldl (fun last c => if c.1.toNat = vector then c.2 else last) 0

theorem registered_last {calls : List (Word × Word)} {handlers handlers' : Handlers}
    (registered : calls.foldlM (fun h c => registerIntHandler h c.1 c.2) handlers = some handlers') (vector : Nat) :
    handlers' vector = calls.foldl (fun last c => if c.1.toNat = vector then c.2 else last) (handlers vector) := by
  induction calls generalizing handlers with
  | nil => exact congrFun (Option.some.inj registered).symm vector
  | cons c calls ih =>
    obtain ⟨h, first, rest⟩ := Option.bind_eq_some_iff.mp registered
    have value : h vector = if c.1.toNat = vector then c.2 else handlers vector := by
      simp only [registerIntHandler] at first
      split at first
      · cases Option.some.inj first
        by_cases same : c.1.toNat = vector
        · simp [same]
        · simp [same, Function.update_of_ne (Ne.symm same)]
      · cases first
    rw [ih rest, value, List.foldl_cons]

/- What interrupt_handler prints for a vector without a handler. -/
def exceptionText (vector : Nat) : List Byte :=
  Libc.bytes "Exception occurred with no. " ++ Libc.cutDecimal vector ++ Libc.bytes "\n"

theorem exception_printed (floats : Libc.Floats) (rodata : Nat → Byte) {vector : Nat} (small : vector < 256) :
    (Libc.vprintf floats (Libc.bytes "Exception occurred with no. %d\n") [BitVec.ofNat 32 vector] rodata).map
      Libc.Printing.out = .ok (exceptionText vector) := by
  have value : (BitVec.ofNat 32 vector).toInt = vector := by
    rw [BitVec.toInt_ofNat']
    exact int32_eq (by omega) (by omega)
  have split : Libc.bytes "Exception occurred with no. %d\n" = Libc.bytes "Exception occurred with no. " ++
      Libc.ch '%' :: Libc.ch 'd' :: Libc.bytes "\n" := by decide +kernel
  have types : Libc.Types floats rodata (Libc.bytes "Exception occurred with no. %d\n" ++ [0]) [BitVec.ofNat 32 vector]
      (exceptionText vector) := by
    simpa [split, value, exceptionText] using
      Libc.types_number (Libc.bytes "Exception occurred with no. ") (Libc.bytes "\n") (by decide +kernel)
        (v := BitVec.ofNat 32 vector) (by omega)
  obtain ⟨s, printed, out⟩ := Libc.vprintf_types (by decide +kernel) types
  rw [printed, ← out]
  rfl

section Dispatch

variable (floats : Libc.Floats) (rodata : Nat → Byte) (handlers : Handlers)
  (run : Word → CpuState → Machine δ → Except (Stop δ) (Machine δ)) {isrStubTable : Nat → Word} (idt : Nat → IdtEntry)
  {code : Word → Option (List Instr)} (back : Word) {bottom top frame : Nat} {s : Machine δ} {vector : Nat} {error : Option Word}
  (linked : code (isrStubTable vector) = some (isr vector)) (deliverable : Deliverable bottom top frame s vector error)
  (limit : top ≤ 4294967296)
include linked deliverable limit

theorem interrupt_call : ∃ t : Machine δ, CpuState.argument (t.push back) = interrupted s vector error ∧ t.dev = s.dev ∧
    Stacked bottom (fun _ => False) s (t.push back) (back :: (interrupted s vector error).pushed) ∧
    interrupt floats rodata handlers run (initIdt isrStubTable idt) code back vector error s =
      t.call (interruptHandler floats rodata handlers run) back >>=
        exec (interruptHandler floats rodata handlers run) back [.addEsp 4, .popal, .addEsp 8, .iret] := by
  obtain ⟨inside, gate⟩ := initIdt_gate isrStubTable idt deliverable.small
  have room := deliverable.room
  obtain ⟨t, stacked, dev, runs⟩ := isr_entry deliverable ((descriptor (isrStubTable vector) 0x8E).kernelCs.setWidth 32)
    (isrStubTable vector)
  have height := stacked.esp
  have pushed := stacked.push back (by simp only [CpuState.pushed, List.length_cons, List.length_nil] at height; omega)
  refine ⟨t, argument_eq deliverable limit pushed, dev, pushed, ?_⟩
  have offset : gateOffset (descriptor (isrStubTable vector) 0x8E).isrLow (descriptor (isrStubTable vector) 0x8E).isrHigh =
      isrStubTable vector := gateOffset_halves _
  have present : IsInterruptGate (descriptor (isrStubTable vector) 0x8E).attributes := by
    simp only [descriptor]
    decide
  simp only [interrupt, gate, offset, linked, if_pos (And.intro inside present), runs]

/-- Without a handler the vector is printed, and the machine hangs. -/
theorem interrupt_hangs (missing : handlers vector = 0) :
    interrupt floats rodata handlers run (initIdt isrStubTable idt) code back vector error s =
      .error (.fault (.hung (.ok (exceptionText vector)))) := by
  obtain ⟨t, argument, -, -, call⟩ := interrupt_call floats rodata handlers run idt back linked
    deliverable limit
  have index := intNo_index deliverable
  have handler : interruptHandler floats rodata handlers run (t.push back) =
      .error (.hung (.ok (exceptionText vector))) := by
    simp only [interruptHandler, argument, index, if_pos deliverable.small, missing, ne_eq, not_true, if_false]
    rw [interrupted, exception_printed floats rodata deliverable.small]
  rw [call, Machine.call, handler]
  rfl

/-- What a handler finds. -/
structure AtHandler (bottom : Nat) (s t : Machine δ) (vector : Nat) (error : Option Word) : Prop where
  argument : CpuState.argument t = interrupted s vector error
  esp : t.esp.toNat + 60 = s.esp.toNat
  mem : ∀ x : Word, x.toNat < bottom ∨ s.esp.toNat ≤ x.toNat → t.mem x = s.mem x
  dev : t.dev = s.dev

/-- With a handler, that is what the function does at its address to the interrupted state. -/
theorem interrupt_handled (present : handlers vector ≠ 0) : ∃ t : Machine δ, AtHandler bottom s t vector error ∧
    (∀ e, run (handlers vector) (interrupted s vector error) t = .error e →
      interrupt floats rodata handlers run (initIdt isrStubTable idt) code back vector error s = .error (.fault e)) ∧
    ∀ hidden, (∀ x, hidden x → x.toNat < bottom ∨ top ≤ x.toNat) →
      Cdecl bottom frame hidden (run (handlers vector) (interrupted s vector error)) →
      ∀ u, run (handlers vector) (interrupted s vector error) t = .ok u → ∃ f,
        interrupt floats rodata handlers run (initIdt isrStubTable idt) code back vector error s = .ok f ∧
          Alike bottom hidden s f ∧ f.mem = u.mem ∧ f.dev = u.dev := by
  obtain ⟨t, argument, dev, stacked, call⟩ := interrupt_call floats rodata handlers run idt back linked
    deliverable limit
  have index := intNo_index deliverable
  have handler : interruptHandler floats rodata handlers run (t.push back) =
      run (handlers vector) (interrupted s vector error) (t.push back) := by
    simp only [interruptHandler, argument, index, if_pos deliverable.small, if_pos present]
  have height := stacked.esp
  simp only [CpuState.pushed, List.length_cons, List.length_nil] at height
  refine ⟨t.push back, ⟨argument, by omega, fun x free => stacked.outside x id free, dev⟩, fun e failed => ?_,
    fun hidden apart cdecl u done => ?_⟩
  · rw [call, Machine.call, handler, failed]
    rfl
  · have room := deliverable.room
    have inside := deliverable.inside
    have back' := stacked.hide.returned cdecl (fun x secret => (apart x secret).imp_right (by omega)) (by omega) done
    have address : u.peek 0 = back := back'.peek [] rfl
    obtain ⟨f, rest, alike, mem, dev⟩ := isr_exit (back'.drop [_] rfl) (interruptHandler floats rodata handlers run) back
    refine ⟨f, ?_, alike, mem, dev⟩
    rw [call, Machine.call, handler, done]
    simp only [address, if_true, ok_bind]
    exact rest

end Dispatch

/-- An interrupt that a device asks for does not come back if its handler does not, also where the stub
expects an error code. -/
theorem interrupt_lost (floats : Libc.Floats) (rodata : Nat → Byte) {handlers : Handlers}
    {run : Word → CpuState → Machine δ → Except (Stop δ) (Machine δ)} {isrStubTable : Nat → Word} (idt : Nat → IdtEntry)
    {code : Word → Option (List Instr)} (back : Word) {bottom : Nat} {s : Machine δ} {vector : Nat}
    (linked : code (isrStubTable vector) = some (isr vector)) (small : vector < 256) (room : bottom + 60 ≤ s.esp.toNat)
    (stuck : handlers vector ≠ 0 → ∀ state t u, run (handlers vector) state t ≠ .ok u) (f : Machine δ) :
    interrupt floats rodata handlers run (initIdt isrStubTable idt) code back vector none s ≠ .ok f := by
  obtain ⟨inside, gate⟩ := initIdt_gate isrStubTable idt small
  have offset : gateOffset (descriptor (isrStubTable vector) 0x8E).isrLow (descriptor (isrStubTable vector) 0x8E).isrHigh =
      isrStubTable vector := gateOffset_halves _
  have present : IsInterruptGate (descriptor (isrStubTable vector) 0x8E).attributes := by
    simp only [descriptor]
    decide
  -- The vector is the last word that is pushed before the stubs meet.
  obtain ⟨met, ws, stacked, few, meet⟩ : ∃ met ws, Stacked bottom (fun _ => False) s met (BitVec.ofNat 32 vector :: ws) ∧
      ws.length ≤ 4 ∧ ∀ body, exec (ε := Stop δ) body back (isr vector)
        (s.deliver ((descriptor (isrStubTable vector) 0x8E).kernelCs.setWidth 32) (isrStubTable vector) none) =
          exec body back isrCommonStub met := by
    have start : Stacked bottom (fun _ => False) s s [] := .start s
    let entered (t : Machine δ) : Machine δ := { t with
      cs := (descriptor (isrStubTable vector) 0x8E).kernelCs.setWidth 32
      eip := isrStubTable vector
      eflags := s.eflags &&& ~~~0x34300 }
    by_cases pushes : vector ∈ errStubs
    · have frame := start.pushes [s.eflags, s.cs, s.eip, BitVec.ofNat 32 vector]
        (by simp only [List.length_cons, List.length_nil]; omega)
      refine ⟨entered (s.pushes [s.eflags, s.cs, s.eip, BitVec.ofNat 32 vector]), [s.eip, s.cs, s.eflags],
        ⟨frame.esp, frame.words, frame.outside⟩, Nat.le_succ 3, fun body => ?_⟩
      rw [isr, if_pos pushes]
      rfl
    · have frame := start.pushes [s.eflags, s.cs, s.eip, 0, BitVec.ofNat 32 vector]
        (by simp only [List.length_cons, List.length_nil]; omega)
      refine ⟨entered (s.pushes [s.eflags, s.cs, s.eip, 0, BitVec.ofNat 32 vector]), [0, s.eip, s.cs, s.eflags],
        ⟨frame.esp, frame.words, frame.outside⟩, Nat.le_refl 4, fun body => ?_⟩
      rw [isr, if_neg pushes]
      rfl
  have height := stacked.esp
  rw [List.length_cons] at height
  obtain ⟨t, full, -, common⟩ := isr_common stacked (by omega)
  have lower := full.esp
  simp only [List.length_append, List.length_cons, List.length_nil] at lower
  have pushed := full.push back (by omega)
  have intNo : (CpuState.argument (t.push back)).intNo.toNat = vector := by
    have number : (t.push back).peek 40 = BitVec.ofNat 32 vector := pushed.peek [_, _, _, _, _, _, _, _, _, _] rfl
    rw [CpuState.argument, number, BitVec.toNat_ofNat]
    omega
  have failed : ∀ u, interruptHandler floats rodata handlers run (t.push back) ≠ .ok u := by
    intro u done
    simp only [interruptHandler, intNo, if_pos small] at done
    split at done
    · rename_i handled
      exact stuck handled _ _ _ done
    · cases done
  intro returned
  simp only [interrupt, gate, offset, linked, if_pos (And.intro inside present), meet, common, Machine.call] at returned
  split at returned
  · cases returned
  · rename_i u done
    exact failed u done


/- A handler that saves a register on its stack and counts in a byte, and a machine for it to interrupt. -/
def counted (_ : Word) (_ : CpuState) (s : Machine Unit) : Except (Stop Unit) (Machine Unit) :=
  .ok { s with mem := Function.update (s.push s.regs.ebp).mem 0x1000 (s.mem 0x1000 + 1) }

def idleMachine : Machine Unit := ⟨⟨1, 2, 3, 4, 5, 6, 7⟩, 0x103000, 0x200000, 8, 0x202, 0, fun _ => 0, ()⟩

theorem counted_cdecl (bottom : Nat) (isr : Word) (state : CpuState) :
    Cdecl bottom 4 (fun x => x = 0x1000) (counted isr state) := by
  intro s t room done
  cases Except.ok.inj done
  refine ⟨rfl, fun x shown free => (Function.update_of_ne shown _ _).trans ?_⟩
  have bound := s.esp.isLt
  have lower := sub_four (a := s.esp) (by omega)
  exact store_outside _ _ (by omega) (by omega)

/- The stub of a vector at the address that is its number. -/
def linkedCode (a : Word) : Option (List Instr) := some (isr a.toNat)

theorem linkedCode_isr (vector : Nat) (small : vector < 256) : linkedCode (BitVec.ofNat 32 vector) = some (isr vector) := by
  have index : (BitVec.ofNat 32 vector).toNat = vector := by
    rw [BitVec.toNat_ofNat]
    omega
  rw [linkedCode, index]

/-- An interrupt that finds room on the stack, and pushes an error code exactly where its stub expects
one, gets to the last handler that has been registered for its vector, with the interrupted state for
its argument. If the handler returns, and keeps the calling convention, the interrupted code goes on in
a state like its own; if there is none the vector is printed and the machine hangs. -/
theorem interrupt_dispatched (floats : Libc.Floats) (rodata : Nat → Byte) {handlers₀ handlers : Handlers}
    {calls : List (Word × Word)} {run : Word → CpuState → Machine δ → Except (Stop δ) (Machine δ)} {isrStubTable : Nat → Word}
    (idt : Nat → IdtEntry) {code : Word → Option (List Instr)} (back : Word) {bottom top frame : Nat} {hidden : Word → Prop}
    {s : Machine δ} {vector : Nat} {error : Option Word}
    (registered : calls.foldlM (fun h c => registerIntHandler h c.1 c.2) (preInitIdt handlers₀) = some handlers)
    (linked : code (isrStubTable vector) = some (isr vector)) (deliverable : Deliverable bottom top frame s vector error)
    (limit : top ≤ 4294967296) (apart : ∀ x, hidden x → x.toNat < bottom ∨ top ≤ x.toNat)
    (cdecl : ∀ state, Cdecl bottom frame hidden (run (lastRegistered calls vector) state)) :
    (lastRegistered calls vector = 0 →
      interrupt floats rodata handlers run (initIdt isrStubTable idt) code back vector error s =
        .error (.fault (.hung (.ok (exceptionText vector))))) ∧
    (lastRegistered calls vector ≠ 0 → ∃ t : Machine δ, AtHandler bottom s t vector error ∧
      (∀ e, run (lastRegistered calls vector) (interrupted s vector error) t = .error e →
        interrupt floats rodata handlers run (initIdt isrStubTable idt) code back vector error s = .error (.fault e)) ∧
      ∀ u, run (lastRegistered calls vector) (interrupted s vector error) t = .ok u → ∃ f,
        interrupt floats rodata handlers run (initIdt isrStubTable idt) code back vector error s = .ok f ∧
          Alike bottom hidden s f ∧ f.mem = u.mem ∧ f.dev = u.dev) := by
  have last : handlers vector = lastRegistered calls vector := by
    rw [registered_last registered, preInitIdt_none _ deliverable.small, lastRegistered]
  rw [← last] at cdecl ⊢
  refine ⟨fun missing => interrupt_hangs floats rodata handlers run idt back linked deliverable limit missing, fun present => ?_⟩
  obtain ⟨t, entered, failed, returned⟩ := interrupt_handled floats rodata handlers run idt back linked deliverable limit present
  exact ⟨t, entered, failed, returned hidden apart (cdecl _)⟩

/- Only the timer's vector has a handler. -/
theorem interrupt_dispatched_timer :
    let floats : Libc.Floats := fun _ _ _ _ _ => .error .argument
    ∃ handlers : Handlers, registerIntHandler (preInitIdt fun _ => 7) 32 0x300000 = some handlers ∧
      (∃ f, interrupt floats Libc.zeros handlers counted (initIdt (BitVec.ofNat 32) fun _ => descriptor 0 0) linkedCode
        0x400000 32 none idleMachine = .ok f ∧ Alike 0x100000 (fun x => x = 0x1000) idleMachine f) ∧
      interrupt floats Libc.zeros handlers counted (initIdt (BitVec.ofNat 32) fun _ => descriptor 0 0) linkedCode
        0x400000 33 none idleMachine = .error (.fault (.hung (.ok (exceptionText 33)))) := by
  intro floats
  have apart : ∀ x : Word, x = 0x1000 → x.toNat < 0x100000 ∨ 0x104000 ≤ x.toNat := by
    rintro x rfl
    exact .inl (by decide)
  have deliverable : ∀ vector < 256, vector ∉ errStubs → Deliverable 0x100000 0x104000 4 idleMachine vector none :=
    fun vector small plain => ⟨small, by simp [plain], by decide, by decide⟩
  have registered : ([(32, 0x300000)] : List (Word × Word)).foldlM (fun h c => registerIntHandler h c.1 c.2)
      (preInitIdt fun _ => 7) = some (Function.update (preInitIdt fun _ => 7) 32 0x300000) := rfl
  obtain ⟨-, timer⟩ := interrupt_dispatched floats Libc.zeros (fun _ => descriptor 0 0) 0x400000 registered
    (linkedCode_isr 32 (by decide)) (deliverable 32 (by decide) (by decide)) (by decide) apart
    (fun state => counted_cdecl _ _ state)
  obtain ⟨other, -⟩ := interrupt_dispatched floats Libc.zeros (fun _ => descriptor 0 0) 0x400000 registered
    (linkedCode_isr 33 (by decide)) (deliverable 33 (by decide) (by decide)) (by decide) apart
    (fun state => counted_cdecl _ _ state)
  obtain ⟨t, -, -, handled⟩ := timer (by decide)
  obtain ⟨f, back, alike, -⟩ := handled _ rfl
  exact ⟨_, rfl, ⟨f, back, alike⟩, other (by decide)⟩

/-- What a machine does next: an instruction of the code that it runs, or an interrupt. -/
inductive Event where
  | program
  | interrupt (vector : Nat) (error : Option Word)

def Event.isProgram : Event → Bool
  | .program => true
  | .interrupt .. => false

/- program is a step of the code that is interrupted. -/
def machineStep (floats : Libc.Floats) (rodata : Nat → Byte) (handlers : Handlers)
    (run : Word → CpuState → Machine δ → Except (Stop δ) (Machine δ)) (idt : Idt) (code : Word → Option (List Instr)) (back : Word)
    (program : Machine δ → Except (Gone (Stop δ)) (Machine δ)) (s : Machine δ) : Event → Except (Gone (Stop δ)) (Machine δ)
  | .program => program s
  | .interrupt vector error => interrupt floats rodata handlers run idt code back vector error s

/-- The addresses whose contents the code knows: those that it has known and has written, without what
handlers write and what is now below its stack. -/
def Event.tell (bottom : Nat) (hidden : Word → Prop) (writes : Machine δ → Word → Prop) (s : Machine δ) (e : Event)
    (t : Machine δ) (live : Word → Prop) : Word → Prop :=
  match e with
  | .program => fun x => (live x ∨ writes s x) ∧ Shown bottom hidden t x
  | .interrupt .. => live

/-- The code reads what it knows, and interrupts find their stack and error code. -/
def Event.Allowed (bottom top frame : Nat) (reads : Machine δ → Word → Prop) (s : Machine δ × (Word → Prop)) : Event → Prop
  | .program => ∀ x, reads s.1 x → s.2 x
  | .interrupt vector error => Deliverable bottom top frame s.1 vector error

/-- Interrupts are invisible to the code that they interrupt, if their handlers keep the calling
convention. Wherever they come in a run of code that reads neither what handlers write nor what it has
not written since it was below its stack, the code comes to the same registers without them, and to the
same memory as far as it knows it. -/
theorem interrupts_invisible {floats : Libc.Floats} {rodata : Nat → Byte} {handlers : Handlers}
    {run : Word → CpuState → Machine δ → Except (Stop δ) (Machine δ)} {isrStubTable : Nat → Word} {idt : Nat → IdtEntry}
    {code : Word → Option (List Instr)} {back : Word} {program : Machine δ → Except (Gone (Stop δ)) (Machine δ)}
    {bottom top frame : Nat} {hidden live : Word → Prop} {reads writes : Machine δ → Word → Prop} {s s' : Machine δ}
    {events : List Event} (linked : ∀ vector < 256, code (isrStubTable vector) = some (isr vector)) (limit : top ≤ 4294967296)
    (apart : ∀ x, hidden x → x.toNat < bottom ∨ top ≤ x.toNat)
    (cdecl : ∀ vector state, handlers vector ≠ 0 → Cdecl bottom frame hidden (run (handlers vector) state))
    (touches : Touches reads writes program)
    (interleaved : Run (withGhost (machineStep floats rodata handlers run (initIdt isrStubTable idt) code back program)
      (Event.tell bottom hidden writes)) (Event.Allowed bottom top frame reads) (s, Shown bottom hidden s) events (s', live)) :
    ∃ t, Run (machineStep floats rodata handlers run (initIdt isrStubTable idt) code back program) (fun _ _ => True)
      s (events.filter Event.isProgram) t ∧ SameOn live s' t := by
  -- What the code knows is not below its stack, so that an interrupt leaves it as it is.
  refine (run_without Event.isProgram
    (R := fun (p : Machine δ × (Word → Prop)) t => SameOn p.2 p.1 t ∧ ∀ x, p.2 x → Shown bottom hidden p.1 x)
    (fun p t e ⟨same, _⟩ allowed kept => ?_) (fun p t e q ⟨same, above⟩ allowed left returned => ?_) interleaved
    ⟨.refl s, fun _ => id⟩).imp fun t done => ⟨done.1, done.2.1⟩
  · cases e with
    | interrupt => cases kept
    | program =>
      intro q returned
      obtain ⟨s₁, stepped, rfl⟩ := map_ok.mp returned
      obtain ⟨t₁, followed, next⟩ := touches p.1 t (same.mono allowed) s₁ stepped
      exact ⟨t₁, followed, next.mono fun x known => known.1.symm.imp_right (same.mem x), fun x known => known.2⟩
  · cases e with
    | program => cases left
    | interrupt vector error =>
      obtain ⟨s₁, stepped, rfl⟩ := map_ok.mp returned
      have deliverable : Deliverable bottom top frame p.1 vector error := allowed
      have link := linked vector deliverable.small
      change interrupt floats rodata handlers run (initIdt isrStubTable idt) code back vector error p.1 = .ok s₁ at stepped
      by_cases missing : handlers vector = 0
      · rw [interrupt_hangs floats rodata handlers run idt back link deliverable limit missing] at stepped
        cases stepped
      obtain ⟨u, _, failed, handled⟩ := interrupt_handled floats rodata handlers run idt back link deliverable limit missing
      cases result : run (handlers vector) (interrupted p.1 vector error) u with
      | error e =>
        rw [failed e result] at stepped
        cases stepped
      | ok w =>
        obtain ⟨f, back', alike, -⟩ := handled hidden apart (cdecl _ _ missing) w result
        cases back'.symm.trans stepped
        refine ⟨(alike.sameOn.mono above).symm.trans same, fun x known => ?_⟩
        have shown := above x known
        exact ⟨shown.1, alike.esp ▸ shown.2⟩

/- sub $4, %esp; mov %eax, (%esp); pop %ecx, at 0x200000. -/
def keepEax (s : Machine Unit) : Except (Gone (Stop Unit)) (Machine Unit) :=
  if s.eip = 0x200000 then .ok { s with esp := s.esp - 4, eip := 0x200003 }
  else if s.eip = 0x200003 then .ok { s with mem := store s.mem s.esp s.regs.eax, eip := 0x200006 }
  else if s.eip = 0x200006 then
    .ok { s with regs := { s.regs with ecx := load s.mem s.esp }, esp := s.esp + 4, eip := 0x200007 }
  else .error .lost

theorem keepEax_touches : Touches (fun s x => s.eip = 0x200006 ∧ Within s.esp x) (fun s x => s.eip = 0x200003 ∧ Within s.esp x)
    keepEax := by
  intro s t same
  obtain ⟨regs, esp, eip, cs, eflags, mem⟩ := same
  rw [keepEax, keepEax, eip]
  refine Follows.ite (fun here => .ok ?_) fun _ => Follows.ite (fun here => .ok ?_) fun _ =>
    Follows.ite (fun here => .ok ?_) fun _ => .error _
  · refine ⟨regs, by rw [esp], rfl, cs, eflags, fun x touched => touched.resolve_left fun written => ?_⟩
    exact absurd (here.symm.trans written.1) (by decide)
  · refine ⟨regs, esp, rfl, cs, eflags, fun x touched => ?_⟩
    rw [esp, regs]
    exact store_same _ (touched.imp_left fun written => written.2)
  · have value : load t.mem s.esp = load s.mem s.esp := load_within fun x inside => mem x ⟨here, inside⟩
    refine ⟨by rw [regs, esp, value], by rw [esp], rfl, cs, eflags, fun x touched => touched.resolve_left fun written => ?_⟩
    exact absurd (here.symm.trans written.1) (by decide)

/- The timer interrupts a program between its sub and its mov. -/
theorem interrupts_invisible_timer :
    let floats : Libc.Floats := fun _ _ _ _ _ => .error .argument
    let step := machineStep floats Libc.zeros (fun _ => 0x300000) counted (initIdt (BitVec.ofNat 32) fun _ => descriptor 0 0)
      linkedCode 0x400000 keepEax
    ∃ s live t, Run (withGhost step (Event.tell 0x100000 (fun x => x = 0x1000) fun s x => s.eip = 0x200003 ∧ Within s.esp x))
        (Event.Allowed 0x100000 0x104000 4 fun s x => s.eip = 0x200006 ∧ Within s.esp x)
        (idleMachine, Shown 0x100000 (fun x => x = 0x1000) idleMachine) [.program, .interrupt 32 none, .program, .program]
        (s, live) ∧
      Run step (fun _ _ => True) idleMachine [.program, .program, .program] t ∧ SameOn live s t := by
  intro floats step
  have apart : ∀ x : Word, x = 0x1000 → x.toNat < 0x100000 ∨ 0x104000 ≤ x.toNat := by
    rintro x rfl
    exact .inl (by decide)
  let low : Machine Unit := { idleMachine with esp := 0x102FFC, eip := 0x200003 }
  have deliverable : Deliverable 0x100000 0x104000 4 low 32 none := ⟨by decide, by decide, by decide, by decide⟩
  obtain ⟨_, _, _, handled⟩ := interrupt_handled floats Libc.zeros (fun _ => 0x300000) counted
    (fun _ => descriptor 0 0) 0x400000 (linkedCode_isr 32 (by decide)) deliverable (by decide) (by decide)
  obtain ⟨f, interrupted, alike, _⟩ := handled _ apart (counted_cdecl _ _ _) _ rfl
  have first : keepEax idleMachine = .ok low := rfl
  have second : keepEax f = .ok { f with mem := store f.mem f.esp f.regs.eax, eip := 0x200006 } := by
    rw [keepEax, alike.eip, if_neg (by decide), if_pos rfl]
  have third : ∀ m, keepEax { f with mem := m, eip := 0x200006 } = .ok { f with
      mem := m, regs := { f.regs with ecx := load m f.esp }, esp := f.esp + 4, eip := 0x200007 } := fun m => rfl
  have known : ∀ x, Within f.esp x → x ≠ 0x1000 ∧ (x.toNat < 0x100000 ∨ f.esp.toNat ≤ x.toNat) := by
    intro x inside
    have value : low.esp.toNat = 1060860 := rfl
    have bound := x.isLt
    rw [alike.esp] at inside ⊢
    rw [Within, BitVec.toNat_sub] at inside
    refine ⟨?_, .inr (by omega)⟩
    rintro rfl
    exact absurd inside (by decide)
  obtain ⟨⟨s, live⟩, run⟩ : ∃ p, Run (withGhost step (Event.tell 0x100000 (fun x => x = 0x1000)
        fun s x => s.eip = 0x200003 ∧ Within s.esp x))
      (Event.Allowed 0x100000 0x104000 4 fun s x => s.eip = 0x200006 ∧ Within s.esp x)
      (idleMachine, Shown 0x100000 (fun x => x = 0x1000) idleMachine) [.program, .interrupt 32 none, .program, .program] p :=
    ⟨_, .cons (fun x read => absurd read.1 (by decide)) (map_ok.mpr ⟨_, first, rfl⟩)
      (.cons deliverable (map_ok.mpr ⟨_, interrupted, rfl⟩)
        (.cons (fun x read => absurd (alike.eip.symm.trans read.1) (by decide)) (map_ok.mpr ⟨_, second, rfl⟩)
          (.cons (fun x read => ⟨.inr ⟨alike.eip, read.2⟩, known x read.2⟩) (map_ok.mpr ⟨_, third _, rfl⟩) (.nil _))))⟩
  obtain ⟨t, plain, same⟩ := interrupts_invisible linkedCode_isr (by decide) apart
    (fun vector state _ => counted_cdecl _ _ state) keepEax_touches run
  exact ⟨_, _, t, run, plain, same⟩

end Icix
