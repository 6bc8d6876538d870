import Icix.Library.Bytes
import Icix.Library.Devices
import Icix.Library.Lifting

/-! The driver of the two interrupt controllers, and the one controller that they are for its callers. -/
namespace Icix
open Bytes Devices Lifting

def pic1Command : Port := 0x20
def pic1Data : Port := pic1Command + 1
def pic2Command : Port := 0xA0
def pic2Data : Port := pic2Command + 1

def icw1Icw4 : Octet := 0x01
def icw1Init : Octet := 0x10
def icw48086 : Octet := 0x01
def picEoi : Octet := 0x20
def picReadIrr : Octet := 0x0a
def picReadIsr : Octet := 0x0b

def ioWait (d : Pc) : Pc := d.outb 0x80 0

def picRemap (offset1 offset2 : Word) (d : Pc) : Pc :=
  let a1 := d.inb pic1Data
  let a2 := d.inb pic2Data
  let d := ioWait (d.outb pic1Command (icw1Init ||| icw1Icw4))
  let d := ioWait (d.outb pic2Command (icw1Init ||| icw1Icw4))
  let d := ioWait (d.outb pic1Data (offset1.setWidth 8))
  let d := ioWait (d.outb pic2Data (offset2.setWidth 8))
  let d := ioWait (d.outb pic1Data 4)
  let d := ioWait (d.outb pic2Data 2)
  let d := ioWait (d.outb pic1Data icw48086)
  let d := ioWait (d.outb pic2Data icw48086)
  (d.outb pic1Data a1).outb pic2Data a2

def picDisable (d : Pc) : Pc := (d.outb pic1Data 0xff).outb pic2Data 0xff

def picSendEoi (irq : Octet) (d : Pc) : Pc :=
  let d := if 8 ≤ irq.toNat then d.outb pic2Command picEoi else d
  d.outb pic1Command picEoi

/- Both functions find the port and the line there alike. -/
def maskPort (irqLine : Octet) : Port × Octet := if irqLine.toNat < 8 then (pic1Data, irqLine) else (pic2Data, irqLine - 8)

/- A shift in the processor's registers counts modulo 32. -/
def irqSetMask (irqLine : Octet) (d : Pc) : Pc :=
  let (port, line) := maskPort irqLine
  d.outb port (((d.inb port).setWidth 32 ||| (1 : Word) <<< (line.toNat % 32)).setWidth 8)

def irqClearMask (irqLine : Octet) (d : Pc) : Pc :=
  let (port, line) := maskPort irqLine
  d.outb port (((d.inb port).setWidth 32 &&& ~~~((1 : Word) <<< (line.toNat % 32))).setWidth 8)

def picGetIrqReg (ocw3 : Octet) (d : Pc) : BitVec 16 × Pc :=
  let d := (d.outb pic1Command ocw3).outb pic2Command ocw3
  ((((d.inb pic2Command).setWidth 32 : Word) <<< 8 ||| (d.inb pic1Command).setWidth 32).setWidth 16, d)

def picGetIrr (d : Pc) : BitVec 16 × Pc := picGetIrqReg picReadIrr d

def picGetIsr (d : Pc) : BitVec 16 × Pc := picGetIrqReg picReadIsr d

/-- What happens to the controllers: a device asks, the processor takes an interrupt, or the kernel calls the driver. -/
inductive PicEvent where
  | raise (line : Nat)
  | acknowledge
  | remap (offset1 offset2 : Word)
  | disable
  | setMask (irqLine : Octet)
  | clearMask (irqLine : Octet)
  | sendEoi (irq : Octet)
  | getIrr
  | getIsr

/- The vector that the processor takes, or the register that a function returns. -/
inductive Seen where
  | nothing
  | vector (v : Octet)
  | register (r : BitVec 16)
  deriving DecidableEq

def picStep (d : Pc) : PicEvent → Seen × Pc
  | .raise line => (.nothing, d.raise line)
  | .acknowledge => match d.acknowledge with
    | some (v, d') => (.vector v, d')
    | none => (.nothing, d)
  | .remap offset1 offset2 => (.nothing, picRemap offset1 offset2 d)
  | .disable => (.nothing, picDisable d)
  | .setMask irqLine => (.nothing, irqSetMask irqLine d)
  | .clearMask irqLine => (.nothing, irqClearMask irqLine d)
  | .sendEoi irq => (.nothing, picSendEoi irq d)
  | .getIrr => let (r, d) := picGetIrr d; (.register r, d)
  | .getIsr => let (r, d) := picGetIsr d; (.register r, d)

/- Whether the slave's lines ask for the master's line 2. -/
def slaveAsks (l : Lines) : Bool :=
  ((List.range 8).find? fun k => l.requested (8 + k) && !l.masked (8 + k) &&
    (List.range (k + 1)).all fun j => !decide (8 + j ∈ l.serving)).isSome

def linesRemap (offset1 offset2 : Word) (masked : Nat → Bool) : Lines where
  first := offset1.setWidth 8 &&& 0xF8
  second := offset2.setWidth 8 &&& 0xF8
  requested _ := false
  masked := masked
  serving := []

/- The same for the one controller. -/
def linesStep (l : Lines) : PicEvent → Seen × Lines
  | .raise line => (.nothing, l.raise line)
  | .acknowledge => match l.next with
    | some n => (.vector (l.vector n), l.serve n)
    | none => (.nothing, l)
  | .remap offset1 offset2 => (.nothing, linesRemap offset1 offset2 l.masked)
  | .disable => (.nothing, { l with masked := fun _ => true })
  | .setMask irqLine => (.nothing, { l with masked := fun n => decide (n = irqLine.toNat) || l.masked n })
  | .clearMask irqLine => (.nothing, { l with masked := fun n => !decide (n = irqLine.toNat) && l.masked n })
  | .sendEoi _ => (.nothing, { l with serving := l.serving.tail })
  | .getIrr => (.register (wideWord fun n => if n = 2 then slaveAsks l else l.requested n), l)
  | .getIsr => (.register (wideWord l.inService), l)

/-- Devices are on the lines but the slave's, a mask is for a line that an int can be shifted by, and an end of
interrupt is for the line served last. -/
def PicEvent.Proper (l : Lines) : PicEvent → Prop
  | .raise line => line < 16 ∧ line ≠ 2
  | .setMask irqLine | .clearMask irqLine => irqLine.toNat < 40
  | .sendEoi irq => l.serving.head? = some irq.toNat
  | _ => True

instance (l : Lines) : (e : PicEvent) → Decidable (e.Proper l)
  | .raise line => inferInstanceAs (Decidable (line < 16 ∧ line ≠ 2))
  | .setMask irqLine => inferInstanceAs (Decidable (irqLine.toNat < 40))
  | .clearMask irqLine => inferInstanceAs (Decidable (irqLine.toNat < 40))
  | .sendEoi irq => inferInstanceAs (Decidable (l.serving.head? = some irq.toNat))
  | .acknowledge => .isTrue trivial
  | .remap .. => .isTrue trivial
  | .disable => .isTrue trivial
  | .getIrr => .isTrue trivial
  | .getIsr => .isTrue trivial

/-- Whatever the controllers were doing, they start anew with the masks that they had. -/
theorem picRemap_eq (offset1 offset2 : Word) (d : Pc) : picRemap offset1 offset2 d = { d with
    master := ⟨0, 0, d.master.mask, offset1.setWidth 8 &&& 0xF8, 4, 1, .ready, false⟩
    slave := ⟨0, 0, d.slave.mask, offset2.setWidth 8 &&& 0xF8, 2, 1, .ready, false⟩ } := rfl

theorem picRemap_represents (offset1 offset2 : Word) (d : Pc) {masked : Nat → Bool}
    (masks : ∀ n < 16, wide d.master.mask d.slave.mask n = masked n) :
    Represents (picRemap offset1 offset2 d) (linesRemap offset1 offset2 masked) := by
  have zeros : ∀ n < 16, wide 0 0 n = false := by
    intro n _
    simp [wide]
  rw [picRemap_eq]
  refine ⟨⟨rfl, rfl⟩, ⟨by simp, by simp⟩, ⟨by simp, rfl⟩, ⟨rfl, rfl⟩, fun n hn => ?_, masks, fun n hn => ?_, List.Pairwise.nil, ?_⟩
  · simpa [linesRemap] using zeros n hn
  · simpa [Lines.inService, linesRemap] using zeros n hn
  · intro m member
    cases member

/- The bit that an int is shifted to, in an octet. -/
theorem shifted_bit {k : Nat} (hk : k < 32) : ((1 : Word) <<< (k % 32)).setWidth 8 = if k < 8 then bit k else 0 := by
  have all : ∀ k : Fin 32, ((1 : Word) <<< (k.val % 32)).setWidth 8 = if k.val < 8 then bit k else 0 := by decide
  exact all ⟨k, hk⟩

theorem octet_or (b : Octet) {k : Nat} (hk : k < 32) :
    ((b.setWidth 32 ||| (1 : Word) <<< (k % 32)).setWidth 8 : Octet) = b ||| (if k < 8 then bit k else 0) := by
  rw [BitVec.setWidth_or, shifted_bit hk, BitVec.setWidth_setWidth_of_le _ (by decide), BitVec.setWidth_eq]

theorem octet_and_not (b : Octet) {k : Nat} (hk : k < 32) :
    ((b.setWidth 32 &&& ~~~((1 : Word) <<< (k % 32))).setWidth 8 : Octet) = b &&& ~~~(if k < 8 then bit k else 0) := by
  rw [BitVec.setWidth_and, BitVec.setWidth_not (by decide), shifted_bit hk, BitVec.setWidth_setWidth_of_le _ (by decide),
    BitVec.setWidth_eq]

section Driver

variable {d : Pc} {l : Lines} (represents : Represents d l)
include represents

theorem outb_mask1 (v : Octet) : d.outb pic1Data v = { d with master := { d.master with mask := v } } := by
  simp [Pc.outb, pic1Data, pic1Command, Chip.data, represents.ready.1]

theorem outb_mask2 (v : Octet) : d.outb pic2Data v = { d with slave := { d.slave with mask := v } } := by
  simp [Pc.outb, pic2Data, pic2Command, Chip.data, represents.ready.2]

theorem remasked (low high : Octet) {masked : Nat → Bool} (masks : ∀ n < 16, wide low high n = masked n) :
    Represents { d with master := { d.master with mask := low }, slave := { d.slave with mask := high } }
      { l with masked := masked } :=
  ⟨represents.ready, represents.manual, represents.cascade, represents.bases, represents.requests, masks,
    represents.services, represents.nested, represents.real⟩

theorem picDisable_represents : Represents (picDisable d) { l with masked := fun _ => true } := by
  have first := outb_mask1 represents 0xff
  have ones : ∀ n < 16, wide 0xff 0xff n = true := by decide
  have next : (picDisable d) = { d with master := { d.master with mask := 0xff }, slave := { d.slave with mask := 0xff } } := by
    rw [picDisable, first]
    simp [Pc.outb, pic2Data, pic2Command, Chip.data, represents.ready.2]
  rw [next]
  exact remasked represents _ _ ones

/- Both functions change the line's bit, if it has one, in the mask that they have read. -/
theorem masked_line {irqLine : Octet} (small : irqLine.toNat < 40) {f : Octet → Octet → Octet} {g : Bool → Bool → Bool}
    (bits : ∀ b m : Octet, ∀ n < 8, (f b m).getLsbD n = g (b.getLsbD n) (m.getLsbD n)) (keeps : ∀ x, g x false = x) :
    Represents (d.outb (maskPort irqLine).1 (f (d.inb (maskPort irqLine).1)
        (if (maskPort irqLine).2.toNat < 8 then bit (maskPort irqLine).2.toNat else 0)))
      { l with masked := fun n => g (l.masked n) (decide (n = irqLine.toNat)) } := by
  by_cases low : irqLine.toNat < 8
  · simp only [maskPort, if_pos low, outb_mask1 represents]
    refine remasked represents (f d.master.mask (bit irqLine.toNat)) d.slave.mask fun n hn => ?_
    have here := represents.masks n hn
    by_cases first : n < 8
    · rw [wide_low _ _ first, bits _ _ n first, bit_getLsbD low first, represents.mask_low first]
    · have other : n ≠ irqLine.toNat := by omega
      rw [wide, if_neg first] at here
      rw [wide, if_neg first, here, decide_eq_false other, keeps]
  · have line : (irqLine - 8).toNat = irqLine.toNat - 8 := by
      have eight : (8 : Octet).toNat = 8 := rfl
      have bound := irqLine.isLt
      rw [BitVec.toNat_sub, eight]
      omega
    simp only [maskPort, if_neg low, outb_mask2 represents, line]
    refine remasked represents d.master.mask (f d.slave.mask _) fun n hn => ?_
    have here := represents.masks n hn
    by_cases first : n < 8
    · have other : n ≠ irqLine.toNat := by omega
      rw [wide_low _ _ first, represents.mask_low first, decide_eq_false other, keeps]
    · have inside : n - 8 < 8 := by omega
      rw [wide, if_neg first] at here
      rw [wide, if_neg first, bits _ _ _ inside]
      change g (d.slave.mask.getLsbD (n - 8)) _ = _
      rw [here]
      congr 1
      split
      · rename_i hasBit
        have same : n - 8 = irqLine.toNat - 8 ↔ n = irqLine.toNat := by omega
        rw [bit_getLsbD hasBit inside, decide_eq_decide]
        exact same
      · have other : n ≠ irqLine.toNat := by omega
        simp [other]

omit represents in
theorem maskPort_line {irqLine : Octet} (small : irqLine.toNat < 40) : (maskPort irqLine).2.toNat < 32 := by
  rw [maskPort]
  split
  · simp only
    omega
  · have eight : (8 : Octet).toNat = 8 := rfl
    simp only [BitVec.toNat_sub, eight]
    omega

theorem irqSetMask_represents {irqLine : Octet} (small : irqLine.toNat < 40) :
    Represents (irqSetMask irqLine d) { l with masked := fun n => decide (n = irqLine.toNat) || l.masked n } := by
  have result := masked_line represents small (f := fun b m => b ||| m) (g := fun x y => y || x)
    (fun b m n _ => by rw [BitVec.getLsbD_or, Bool.or_comm]) (fun x => Bool.false_or x)
  have value := octet_or (d.inb (maskPort irqLine).1) (maskPort_line small)
  rw [← value] at result
  exact result

theorem irqClearMask_represents {irqLine : Octet} (small : irqLine.toNat < 40) :
    Represents (irqClearMask irqLine d) { l with masked := fun n => !decide (n = irqLine.toNat) && l.masked n } := by
  have result := masked_line represents small (f := fun b m => b &&& ~~~m) (g := fun x y => !y && x)
    (fun b m n hn => by simp [hn, Bool.and_comm]) (fun x => Bool.true_and x)
  have value := octet_and_not (d.inb (maskPort irqLine).1) (maskPort_line small)
  rw [← value] at result
  exact result

/-- PIC_sendEOI for the line that is served last ends it. -/
theorem picSendEoi_represents {irq : Octet} (last : l.serving.head? = some irq.toNat) :
    Represents (picSendEoi irq d) { l with serving := l.serving.tail } := by
  obtain ⟨rest, serving⟩ := List.head?_eq_some_iff.mp last
  have ended := represents.done serving
  have same : picSendEoi irq d =
      { d with slave := if 8 ≤ irq.toNat then d.slave.command 0x20 else d.slave, master := d.master.command 0x20 } := by
    by_cases slave : 8 ≤ irq.toNat
    · simp only [picSendEoi, if_pos slave]
      rfl
    · simp only [picSendEoi, if_neg slave]
      rfl
  rw [same, serving]
  exact ended

omit represents in
theorem combined_getLsbD (low high : Octet) {n : Nat} (hn : n < 16) :
    (((high.setWidth 32 : Word) <<< 8 ||| low.setWidth 32).setWidth 16).getLsbD n = wide low high n := by
  have inside : n < 32 := by omega
  rw [BitVec.getLsbD_setWidth, BitVec.getLsbD_or, BitVec.getLsbD_shiftLeft, BitVec.getLsbD_setWidth, BitVec.getLsbD_setWidth,
    wide]
  by_cases first : n < 8
  · simp [hn, inside, first]
  · have above : low.getLsbD n = false := BitVec.getLsbD_of_ge low n (by omega)
    have later : n - 8 < 32 := by omega
    simp only [hn, inside, first, later, above, decide_true, decide_false, Bool.not_false, Bool.true_and, Bool.and_false,
      Bool.or_false, if_false]

/- A register that both controllers are told to show. -/
theorem picGetIrqReg_represents (readService : Bool) (ocw3 : Octet)
    (selects : ∀ c : Chip, c.command ocw3 = { c with readService := readService }) :
    Represents (picGetIrqReg ocw3 d).2 l ∧ ∀ n < 16, (picGetIrqReg ocw3 d).1.getLsbD n =
      if readService then wide d.master.service d.slave.service n else wide d.asked d.slave.request n := by
  have state : (d.outb pic1Command ocw3).outb pic2Command ocw3 = { d with
      master := { d.master with readService := readService }, slave := { d.slave with readService := readService } } := by
    rw [← selects, ← selects]
    rfl
  simp only [picGetIrqReg, state]
  refine ⟨⟨represents.ready, represents.manual, represents.cascade, represents.bases, represents.requests, represents.masks,
    represents.services, represents.nested, represents.real⟩, fun n hn => ?_⟩
  rw [combined_getLsbD _ _ hn]
  cases readService with
  | false => rfl
  | true => rfl

theorem slavePending_isSome : d.slavePending.isSome = slaveAsks l := by
  rw [Pc.slavePending, Chip.pending, slaveAsks]
  congr 1
  apply List.find?_congr
  intro k member
  have hk := List.mem_range.mp member
  rw [represents.request_high hk, represents.mask_high hk]
  congr 1
  rw [Bool.eq_iff_iff, List.all_eq_true, List.all_eq_true]
  refine forall₂_congr fun j inside => ?_
  have hj := List.mem_range.mp inside
  rw [represents.service_high (by omega)]

theorem picGetIrr_represents : Represents (picGetIrr d).2 l ∧
    (picGetIrr d).1 = wideWord fun n => if n = 2 then slaveAsks l else l.requested n := by
  obtain ⟨kept, bits⟩ := picGetIrqReg_represents represents false picReadIrr fun _ => rfl
  refine ⟨kept, wideWord_eq fun n hn => (bits n hn).trans ?_⟩
  simp only [Bool.false_eq_true, if_false, wide]
  split
  · rename_i first
    split
    · rename_i cascade
      rw [cascade, represents.asked_cascade, slavePending_isSome represents]
    · rename_i other
      exact represents.asked_low first other
  · have back : 8 + (n - 8) = n := by omega
    have other : n ≠ 2 := by omega
    rw [represents.request_high (by omega), back, if_neg other]

theorem picGetIsr_represents : Represents (picGetIsr d).2 l ∧ (picGetIsr d).1 = wideWord l.inService := by
  obtain ⟨kept, bits⟩ := picGetIrqReg_represents represents true picReadIsr fun _ => rfl
  exact ⟨kept, wideWord_eq fun n hn => (bits n hn).trans (represents.services n hn)⟩

/-- What happens to the controllers is seen of them as it is of the one. -/
theorem picStep_represents {e : PicEvent} (proper : e.Proper l) :
    (picStep d e).1 = (linesStep l e).1 ∧ Represents (picStep d e).2 (linesStep l e).2 := by
  cases e with
  | raise line => exact ⟨rfl, represents.raise proper.1 proper.2⟩
  | acknowledge =>
    obtain ⟨none, some⟩ := represents.acknowledge
    cases chosen : l.next with
    | none => simpa only [picStep, linesStep, chosen, none chosen, true_and] using represents
    | some n =>
      obtain ⟨d', taken, -, after⟩ := some n chosen
      simpa only [picStep, linesStep, chosen, taken, true_and] using after
  | remap offset1 offset2 => exact ⟨rfl, picRemap_represents offset1 offset2 d represents.masks⟩
  | disable => exact ⟨rfl, picDisable_represents represents⟩
  | setMask irqLine => exact ⟨rfl, irqSetMask_represents represents proper⟩
  | clearMask irqLine => exact ⟨rfl, irqClearMask_represents represents proper⟩
  | sendEoi irq => exact ⟨rfl, picSendEoi_represents represents proper⟩
  | getIrr =>
    obtain ⟨kept, value⟩ := picGetIrr_represents represents
    exact ⟨congrArg Seen.register value, kept⟩
  | getIsr =>
    obtain ⟨kept, value⟩ := picGetIsr_represents represents
    exact ⟨congrArg Seen.register value, kept⟩

end Driver

/-- From PIC_remap on the two controllers are one with 16 lines: whatever they were doing before, and in whatever
order devices ask, the processor takes interrupts and the kernel calls the driver. -/
theorem pics_one_controller (d : Pc) (offset1 offset2 : Word) {events : List PicEvent}
    (met : Met linesStep PicEvent.Proper (linesRemap offset1 offset2 (wide d.master.mask d.slave.mask)) events) :
    (shown picStep (picRemap offset1 offset2 d) events).1 =
      (shown linesStep (linesRemap offset1 offset2 (wide d.master.mask d.slave.mask)) events).1 := by
  have each : ∀ d l e, Represents d l → PicEvent.Proper l e →
      (picStep d e).1 = (linesStep l e).1 ∧ Represents (picStep d e).2 (linesStep l e).2 :=
    fun d l e represents proper => picStep_represents represents proper
  exact (shown_same each met (picRemap_represents offset1 offset2 d fun _ _ => rfl)).1

/- Devices ask on lines 3, 9 and 0. Line 0 comes first, then the slave's line 9, and line 3 last. -/
theorem pics_one_controller_nested :
    let d : Pc := ⟨⟨0xFF, 0xFF, 0xB8, 8, 0, 0, .icw2 true true, true⟩, ⟨0, 0, 0x8F, 0x70, 0, 0, .ready, false⟩, ⟨0, none, 0⟩⟩
    let events : List PicEvent := [.raise 3, .raise 9, .clearMask 9, .clearMask 3, .clearMask 2, .acknowledge, .raise 0, .getIrr,
      .acknowledge, .getIsr, .sendEoi 0, .sendEoi 9, .acknowledge, .disable, .setMask 39]
    (shown picStep (picRemap 0x20 0x28 d) events).1 =
      (shown linesStep (linesRemap 0x20 0x28 (wide d.master.mask d.slave.mask)) events).1 ∧
    (shown picStep (picRemap 0x20 0x28 d) events).1 = [.nothing, .nothing, .nothing, .nothing, .nothing, .vector 0x29, .nothing,
      .register 0x0009, .vector 0x20, .register 0x0205, .nothing, .nothing, .vector 0x23, .nothing, .nothing] := by
  intro d events
  have met : Met linesStep PicEvent.Proper (linesRemap 0x20 0x28 (wide d.master.mask d.slave.mask)) events := by
    decide
  exact ⟨pics_one_controller d 0x20 0x28 met, by decide⟩

end Icix
