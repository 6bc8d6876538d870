import Icix.Library.Bytes
import Icix.Library.Lifting

/-! The stack of an IA-32 processor: words at falling addresses of a byte memory, and the instructions
and interrupts that move them there and back. -/
namespace Ia32
open Bytes Lifting

abbrev Memory := Word → Byte

def load (m : Memory) (a : Word) : Word := word fun k => m (a + BitVec.ofNat 32 k)

def store (m : Memory) (a w : Word) : Memory :=
  fun x => if (x - a).toNat < 4 then wordByte w (x - a).toNat else m x

theorem load_store (m : Memory) (a w : Word) : load (store m a w) a = w := by
  have bytes : ∀ k < 4, store m a w (a + BitVec.ofNat 32 k) = wordByte w k := by
    intro k hk
    have offset : (a + BitVec.ofNat 32 k - a).toNat = k := by
      rw [BitVec.add_comm, BitVec.add_sub_cancel, BitVec.toNat_ofNat]
      omega
    simp only [store, offset, if_pos hk]
  rw [load, word_congr bytes, word_wordByte]

theorem store_outside (m : Memory) {a x : Word} (w : Word) (whole : a.toNat + 4 ≤ 4294967296)
    (outside : x.toNat < a.toNat ∨ a.toNat + 4 ≤ x.toNat) : store m a w x = m x := by
  have far : ¬ (x - a).toNat < 4 := by
    rw [BitVec.toNat_sub]
    omega
  simp only [store, if_neg far]

theorem load_congr {m n : Memory} {a : Word} (whole : a.toNat + 4 ≤ 4294967296)
    (same : ∀ x : Word, a.toNat ≤ x.toNat → x.toNat < a.toNat + 4 → m x = n x) : load m a = load n a := by
  refine word_congr fun k hk => ?_
  have addr : (a + BitVec.ofNat 32 k).toNat = a.toNat + k := by
    rw [BitVec.toNat_add, BitVec.toNat_ofNat]
    omega
  exact same _ (by omega) (by omega)

/- The four bytes of the word at an address. -/
def Within (a x : Word) : Prop := (x - a).toNat < 4

theorem load_within {m n : Memory} {a : Word} (same : ∀ x, Within a x → m x = n x) : load m a = load n a := by
  refine word_congr fun k hk => same _ ?_
  rw [Within, BitVec.add_comm, BitVec.add_sub_cancel, BitVec.toNat_ofNat]
  omega

theorem store_same {m n : Memory} {a x : Word} (w : Word) (same : Within a x ∨ m x = n x) : store m a w x = store n a w x := by
  unfold store
  split
  · rfl
  · rename_i outside
    exact same.resolve_left outside

/-- The words are in memory one after the other. -/
def Framed (m : Memory) : Word → List Word → Prop
  | _, [] => True
  | a, w :: ws => load m a = w ∧ Framed m (a + 4) ws

theorem add_four {a : Word} (whole : a.toNat + 4 < 4294967296) : (a + 4).toNat = a.toNat + 4 := by
  have four : (4 : Word).toNat = 4 := rfl
  rw [BitVec.toNat_add, four]
  omega

theorem sub_four {a : Word} (room : 4 ≤ a.toNat) : (a - 4).toNat = a.toNat - 4 := by
  have four : (4 : Word).toNat = 4 := rfl
  have bound := a.isLt
  rw [BitVec.toNat_sub, four]
  omega

theorem framed_congr {m n : Memory} {a : Word} {ws : List Word} (whole : a.toNat + 4 * ws.length < 4294967296)
    (same : ∀ x : Word, a.toNat ≤ x.toNat → x.toNat < a.toNat + 4 * ws.length → m x = n x) (framed : Framed m a ws) :
    Framed n a ws := by
  induction ws generalizing a with
  | nil => trivial
  | cons w ws ih =>
    rw [List.length_cons] at whole same
    have next := add_four (a := a) (by omega)
    obtain ⟨first, rest⟩ := framed
    refine ⟨?_, ih (by omega) (fun x low high => same x (by omega) (by omega)) rest⟩
    rw [← first]
    exact (load_congr (by omega) fun x low high => same x low (by omega)).symm

/-- What is in memory behind the first words. -/
theorem Framed.suffix {m : Memory} {a : Word} {front back : List Word} (framed : Framed m a (front ++ back)) :
    Framed m (a + BitVec.ofNat 32 (4 * front.length)) back := by
  induction front generalizing a with
  | nil => simpa using framed
  | cons w front ih =>
    have split : a + BitVec.ofNat 32 (4 * (w :: front).length) = a + 4 + BitVec.ofNat 32 (4 * front.length) := by
      rw [List.length_cons, Nat.mul_succ, Nat.add_comm, BitVec.ofNat_add, BitVec.add_assoc]
      rfl
    rw [split]
    exact ih framed.2

/- The registers that pushal saves, without esp. -/
structure Regs where
  eax : Word
  ecx : Word
  edx : Word
  ebx : Word
  ebp : Word
  esi : Word
  edi : Word

/- dev is what the processor does not see of the machine: its devices. -/
structure Machine (δ : Type) where
  regs : Regs
  esp : Word
  eip : Word
  cs : Word
  eflags : Word
  cr2 : Word
  mem : Memory
  dev : δ

variable {δ : Type}

def Machine.push (s : Machine δ) (w : Word) : Machine δ :=
  { s with esp := s.esp - 4, mem := store s.mem (s.esp - 4) w }

def Machine.pushes (s : Machine δ) (ws : List Word) : Machine δ := ws.foldl Machine.push s

section Pushes

variable (s : Machine δ) (ws : List Word)

@[simp] theorem pushes_regs : (s.pushes ws).regs = s.regs := by
  induction ws generalizing s with
  | nil => rfl
  | cons w ws ih => exact ih (s.push w)

@[simp] theorem pushes_cr2 : (s.pushes ws).cr2 = s.cr2 := by
  induction ws generalizing s with
  | nil => rfl
  | cons w ws ih => exact ih (s.push w)

@[simp] theorem pushes_dev : (s.pushes ws).dev = s.dev := by
  induction ws generalizing s with
  | nil => rfl
  | cons w ws ih => exact ih (s.push w)

end Pushes

/- The word at a distance from the top of the stack. -/
def Machine.peek (s : Machine δ) (n : Nat) : Word := load s.mem (s.esp + BitVec.ofNat 32 n)

def Machine.drop (s : Machine δ) (n : Nat) : Machine δ := { s with esp := s.esp + BitVec.ofNat 32 n }

def Machine.pushal (s : Machine δ) : Machine δ :=
  s.pushes [s.regs.eax, s.regs.ecx, s.regs.edx, s.regs.ebx, s.esp, s.regs.ebp, s.regs.esi, s.regs.edi]

/- popal passes over the esp that pushal has saved. -/
def Machine.popal (s : Machine δ) : Machine δ :=
  { s.drop 32 with regs := ⟨s.peek 28, s.peek 24, s.peek 20, s.peek 16, s.peek 8, s.peek 4, s.peek 0⟩ }

/- To the same privilege level. -/
def Machine.iret (s : Machine δ) : Machine δ :=
  { s.drop 12 with eip := s.peek 0, cs := s.peek 4, eflags := s.peek 8 }

/- An interrupt through an interrupt gate, from the same privilege level. It clears IF, TF, NT, RF and VM. -/
def Machine.deliver (s : Machine δ) (selector offset : Word) (error : Option Word) : Machine δ :=
  let t := s.pushes ([s.eflags, s.cs, s.eip] ++ error.toList)
  { t with cs := selector, eip := offset, eflags := s.eflags &&& ~~~0x34300 }

/- The handler's address is in two halves of a gate. -/
def gateOffset (low high : BitVec 16) : Word := high ++ low

/- Present, and an interrupt gate of 32 bits. -/
def IsInterruptGate (attributes : Byte) : Prop := attributes &&& 0x9F = 0x8E

instance (attributes : Byte) : Decidable (IsInterruptGate attributes) :=
  inferInstanceAs (Decidable (attributes &&& 0x9F = 0x8E))

theorem gateOffset_halves (a : Word) : gateOffset ((a &&& 0xFFFF).setWidth 16) ((a >>> 16).setWidth 16) = a := by
  have mask : (0xFFFF : Word).toNat = 2 ^ 16 - 1 := by decide
  have bound := a.isLt
  apply BitVec.eq_of_toNat_eq
  simp only [gateOffset, BitVec.toNat_append, BitVec.toNat_setWidth, BitVec.toNat_ushiftRight, BitVec.toNat_and, mask,
    Nat.and_two_pow_sub_one_eq_mod, Nat.shiftRight_eq_div_pow]
  rw [← Nat.shiftLeft_add_eq_or_of_lt (by omega), Nat.shiftLeft_eq]
  omega

/- A segment's base and limit, from the parts of its descriptor. -/
def segmentBase (low : BitVec 16) (middle high : Byte) : Word := high ++ middle ++ low

def segmentLimit (low : BitVec 16) (granularity : Byte) : Nat :=
  let limit := ((granularity.setWidth 4 : BitVec 4) ++ low).toNat
  if granularity.getLsbD 7 then limit * 4096 + 4095 else limit

inductive Instr where
  | push (w : Word)
  | pushal
  | movCr2Eax
  | pushEax
  | call
  | addEsp (n : Nat)
  | popal
  | iret

/- Why a machine does not go on: a function has not returned to where it was called from, or
there is a fault in it. -/
inductive Gone (ε : Type) where
  | lost
  | fault (e : ε)

/- A call of a function that body stands for, up to its ret; back is the address after the call. -/
def Machine.call {ε : Type} (body : Machine δ → Except ε (Machine δ)) (back : Word) (s : Machine δ) :
    Except (Gone ε) (Machine δ) :=
  match body (s.push back) with
  | .error e => .error (.fault e)
  | .ok t => if t.peek 0 = back then .ok (t.drop 4) else .error .lost

/- The code up to its iret, with one function that it calls. -/
def exec {ε : Type} (body : Machine δ → Except ε (Machine δ)) (back : Word) : List Instr → Machine δ → Except (Gone ε) (Machine δ)
  | [], s => .ok s
  | .push w :: rest, s => exec body back rest (s.push w)
  | .pushal :: rest, s => exec body back rest s.pushal
  | .movCr2Eax :: rest, s => exec body back rest { s with regs := { s.regs with eax := s.cr2 } }
  | .pushEax :: rest, s => exec body back rest (s.push s.regs.eax)
  | .call :: rest, s => s.call body back >>= exec body back rest
  | .addEsp n :: rest, s => exec body back rest (s.drop n)
  | .popal :: rest, s => exec body back rest s.popal
  | .iret :: _, s => .ok s.iret

/-- Two machines that agree on all that can be read of them: the registers, and the memory outside of
what is hidden and of the stack's free part. -/
structure Alike (bottom : Nat) (hidden : Word → Prop) (s t : Machine δ) : Prop where
  regs : t.regs = s.regs
  esp : t.esp = s.esp
  eip : t.eip = s.eip
  cs : t.cs = s.cs
  eflags : t.eflags = s.eflags
  mem : ∀ x, ¬ hidden x → x.toNat < bottom ∨ s.esp.toNat ≤ x.toNat → t.mem x = s.mem x

/-- A function that comes back to where its stack was and has written to what is hidden and to
the stack's free part only, where that has the bytes of its frame. -/
def Cdecl {ε : Type} (bottom frame : Nat) (hidden : Word → Prop) (body : Machine δ → Except ε (Machine δ)) : Prop :=
  ∀ s t, bottom + frame ≤ s.esp.toNat → body s = .ok t → t.esp = s.esp ∧
    ∀ x, ¬ hidden x → x.toNat < bottom ∨ s.esp.toNat ≤ x.toNat → t.mem x = s.mem x

/- The addresses outside of what is hidden and of the stack's free part. -/
def Shown (bottom : Nat) (hidden : Word → Prop) (s : Machine δ) (x : Word) : Prop :=
  ¬ hidden x ∧ (x.toNat < bottom ∨ s.esp.toNat ≤ x.toNat)

/-- Two machines with the same registers, and the same memory at the live addresses. -/
structure SameOn (live : Word → Prop) (s t : Machine δ) : Prop where
  regs : t.regs = s.regs
  esp : t.esp = s.esp
  eip : t.eip = s.eip
  cs : t.cs = s.cs
  eflags : t.eflags = s.eflags
  mem : ∀ x, live x → t.mem x = s.mem x

/-- A step of code that depends on the memory only where it reads: machines that are the same there
are the same afterwards, where it has written and wherever they were before. -/
def Touches {ε : Type} (reads writes : Machine δ → Word → Prop) (program : Machine δ → Except ε (Machine δ)) : Prop :=
  ∀ s t, SameOn (reads s) s t →
    Follows (SameOn fun x => writes s x ∨ t.mem x = s.mem x) (program s) (program t)

/-- The words that have been pushed since a machine was like base. -/
structure Stacked (bottom : Nat) (hidden : Word → Prop) (base s : Machine δ) (ws : List Word) : Prop where
  esp : s.esp.toNat + 4 * ws.length = base.esp.toNat
  words : Framed s.mem s.esp ws
  outside : ∀ x, ¬ hidden x → x.toNat < bottom ∨ base.esp.toNat ≤ x.toNat → s.mem x = base.mem x

namespace Alike

variable {bottom : Nat} {hidden : Word → Prop} {s t u : Machine δ}

theorem refl (s : Machine δ) : Alike bottom hidden s s := ⟨rfl, rfl, rfl, rfl, rfl, fun _ _ _ => rfl⟩

theorem sameOn (alike : Alike bottom hidden s t) : SameOn (Shown bottom hidden s) s t :=
  ⟨alike.regs, alike.esp, alike.eip, alike.cs, alike.eflags, fun x shown => alike.mem x shown.1 shown.2⟩

theorem trans (first : Alike bottom hidden s t) (second : Alike bottom hidden t u) : Alike bottom hidden s u where
  regs := second.regs.trans first.regs
  esp := second.esp.trans first.esp
  eip := second.eip.trans first.eip
  cs := second.cs.trans first.cs
  eflags := second.eflags.trans first.eflags
  mem x shown free := (second.mem x shown (first.esp ▸ free)).trans (first.mem x shown free)

end Alike

namespace SameOn

variable {live : Word → Prop} {s t u : Machine δ}

theorem refl (s : Machine δ) : SameOn live s s := ⟨rfl, rfl, rfl, rfl, rfl, fun _ _ => rfl⟩

theorem symm (same : SameOn live s t) : SameOn live t s :=
  ⟨same.regs.symm, same.esp.symm, same.eip.symm, same.cs.symm, same.eflags.symm, fun x here => (same.mem x here).symm⟩

theorem trans (first : SameOn live s t) (second : SameOn live t u) : SameOn live s u where
  regs := second.regs.trans first.regs
  esp := second.esp.trans first.esp
  eip := second.eip.trans first.eip
  cs := second.cs.trans first.cs
  eflags := second.eflags.trans first.eflags
  mem x here := (second.mem x here).trans (first.mem x here)

theorem mono {less : Word → Prop} (same : SameOn live s t) (fewer : ∀ x, less x → live x) : SameOn less s t :=
  { same with mem := fun x here => same.mem x (fewer x here) }

end SameOn

namespace Stacked

variable {bottom : Nat} {hidden : Word → Prop} {base s t : Machine δ} {ws : List Word}

theorem start (base : Machine δ) : Stacked bottom hidden base base [] := ⟨rfl, trivial, fun _ _ _ => rfl⟩

theorem hide (stacked : Stacked bottom (fun _ => False) base s ws) : Stacked bottom hidden base s ws :=
  ⟨stacked.esp, stacked.words, fun x _ free => stacked.outside x id free⟩

variable (stacked : Stacked bottom hidden base s ws)
include stacked

theorem push (w : Word) (room : bottom + 4 ≤ s.esp.toNat) : Stacked bottom hidden base (s.push w) (w :: ws) := by
  have esp := stacked.esp
  have bound := base.esp.isLt
  have lower := sub_four (a := s.esp) (by omega)
  refine ⟨?_, ⟨load_store _ _ _, ?_⟩, fun x shown free => ?_⟩
  · simp only [Machine.push, lower, List.length_cons]
    omega
  · have back : s.esp - 4 + 4 = s.esp := BitVec.sub_add_cancel s.esp 4
    simp only [Machine.push, back]
    refine framed_congr (by omega) (fun x low _ => ?_) stacked.words
    exact (store_outside _ w (by omega) (by omega)).symm
  · have kept := stacked.outside x shown free
    simp only [Machine.push]
    rw [store_outside _ w (by omega) (by omega), kept]

theorem pushes (vs : List Word) (room : bottom + 4 * vs.length ≤ s.esp.toNat) :
    Stacked bottom hidden base (s.pushes vs) (vs.reverse ++ ws) := by
  induction vs generalizing s ws with
  | nil => exact stacked
  | cons v vs ih =>
    rw [List.length_cons] at room
    have lower := sub_four (a := s.esp) (by omega)
    have first := stacked.push v (by omega)
    have rest := ih first (by simp only [Machine.push, lower]; omega)
    simpa [Machine.pushes] using rest

theorem peek (front : List Word) {w : Word} {back : List Word} (split : ws = front ++ w :: back) :
    s.peek (4 * front.length) = w := by
  subst split
  exact stacked.words.suffix.1

theorem drop (front : List Word) {back : List Word} (split : ws = front ++ back) :
    Stacked bottom hidden base (s.drop (4 * front.length)) back := by
  subst split
  have esp := stacked.esp
  have bound := base.esp.isLt
  rw [List.length_append] at esp
  have raised : (s.esp + BitVec.ofNat 32 (4 * front.length)).toNat = s.esp.toNat + 4 * front.length := by
    rw [BitVec.toNat_add, BitVec.toNat_ofNat]
    omega
  refine ⟨?_, stacked.words.suffix, stacked.outside⟩
  simp only [Machine.drop, raised]
  omega

/-- The words that were on the stack before. -/
theorem peek_base (n : Nat) (inside : base.esp.toNat + n + 4 ≤ 4294967296)
    (shown : ∀ x : Word, base.esp.toNat ≤ x.toNat → ¬ hidden x) : s.peek (4 * ws.length + n) = base.peek n := by
  have esp := stacked.esp
  have low : (base.esp + BitVec.ofNat 32 n).toNat = base.esp.toNat + n := by
    rw [BitVec.toNat_add, BitVec.toNat_ofNat]
    omega
  have same : s.esp + BitVec.ofNat 32 (4 * ws.length + n) = base.esp + BitVec.ofNat 32 n := by
    apply BitVec.eq_of_toNat_eq
    rw [low, BitVec.toNat_add, BitVec.toNat_ofNat]
    omega
  rw [Machine.peek, same]
  refine load_congr (by omega) fun x above _ => ?_
  exact stacked.outside x (shown x (by omega)) (.inr (by omega))

/-- A function's argument is as it was when the function has returned. -/
theorem returned {ε : Type} {body : Machine δ → Except ε (Machine δ)} {frame : Nat} (cdecl : Cdecl bottom frame hidden body)
    (apart : ∀ x, hidden x → x.toNat < bottom ∨ base.esp.toNat ≤ x.toNat) (room : bottom + frame ≤ s.esp.toNat)
    (done : body s = .ok t) : Stacked bottom hidden base t ws := by
  obtain ⟨esp, mem⟩ := cdecl s t room done
  have height := stacked.esp
  have bound := base.esp.isLt
  refine ⟨esp ▸ height, ?_, fun x shown free => ?_⟩
  · rw [esp]
    refine framed_congr (by omega) (fun x low high => ?_) stacked.words
    refine (mem x (fun secret => ?_) (.inr low)).symm
    have away := apart x secret
    omega
  · refine (mem x shown ?_).trans (stacked.outside x shown free)
    omega

end Stacked

end Ia32
