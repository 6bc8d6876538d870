import Icix.Library.Bytes

/-! The text terminal of kernel/arch/i386/tty.c: 25 rows of 80 cells, a cursor that
wraps at the right margin, and a screen that is cleared when the cursor would leave
it at the bottom. -/
namespace Icix
open Bytes

def vgaWidth : Nat := 80
def vgaHeight : Nat := 25

/- uint16_t: the character below, its colours above. -/
abbrev Cell := BitVec 16

def vgaEntry (uc color : Byte) : Cell := uc.setWidth 16 ||| color.setWidth 16 <<< 8

def vgaEntryColor (fg bg : Byte) : Byte := fg ||| bg <<< 4

/- VGA_MEMORY is an array that has cells past the screen's. -/
structure Terminal where
  row : Nat
  column : Nat
  color : Byte
  buffer : Nat → Cell

/-- The double loop of terminal_initialize and terminal_clear over the whole screen. -/
def terminalClear (t : Terminal) : Terminal :=
  { t with buffer := fun i => if i < vgaHeight * vgaWidth then vgaEntry 32 t.color else t.buffer i }

def terminalInitialize (t : Terminal) : Terminal :=
  terminalClear { t with row := 0, column := 0, color := vgaEntryColor 7 0 }

def terminalSetcolor (t : Terminal) (color : Byte) : Terminal := { t with color := color }

def terminalPutentryat (t : Terminal) (c color : Byte) (x y : Nat) : Terminal :=
  { t with buffer := Function.update t.buffer (y * vgaWidth + x) (vgaEntry c color) }

/- The end of a line, by a newline or at the right margin. -/
def nextRow (t : Terminal) : Terminal :=
  let t := { t with column := 0, row := t.row + 1 }
  if t.row = vgaHeight then terminalClear { t with row := 0 } else t

def terminalPutchar (t : Terminal) (c : Byte) : Terminal :=
  if c = 10 then nextRow t
  else
    let t := terminalPutentryat t c t.color t.column t.row
    let t := { t with column := t.column + 1 }
    if t.column = vgaWidth then nextRow t else t

inductive TtyCall where
  | putchar (c : Byte)
  | setcolor (color : Byte)

def tty (t : Terminal) : TtyCall → Terminal
  | .putchar c => terminalPutchar t c
  | .setcolor color => terminalSetcolor t color

/- The characters that the calls write. -/
def written : List TtyCall → List Byte
  | [] => []
  | .putchar c :: calls => c :: written calls
  | .setcolor _ :: calls => written calls

def Cell.char (e : Cell) : Byte := e.setWidth 8

@[simp] theorem vgaEntry_char (uc color : Byte) : (vgaEntry uc color).char = uc := by
  apply BitVec.eq_of_getLsbD_eq
  intro i hi
  simp only [Cell.char, vgaEntry, BitVec.getLsbD_setWidth, BitVec.getLsbD_or, BitVec.getLsbD_shiftLeft, hi,
    Nat.lt_trans hi (by decide : 8 < 16), decide_true, Bool.true_and, Bool.not_true, Bool.false_and, Bool.or_false]

/-- What the screen shows after text, over the memory that was there before: the
cursor is on it, every cell from the cursor on is blank, and left of the cursor
its row has the end of the text. -/
structure Shows (memory : Nat → Cell) (text : List Byte) (t : Terminal) : Prop where
  row : t.row < vgaHeight
  column : t.column < vgaWidth
  outside : ∀ i, vgaHeight * vgaWidth ≤ i → t.buffer i = memory i
  blank : ∀ i, t.row * vgaWidth + t.column ≤ i → i < vgaHeight * vgaWidth → (t.buffer i).char = 32
  line : ∃ before line, text = before ++ line ∧ line.length = t.column ∧ 10 ∉ line ∧
    ∀ k (h : k < line.length), (t.buffer (t.row * vgaWidth + k)).char = line.get ⟨k, h⟩

theorem terminalInitialize_shows (t : Terminal) : Shows t.buffer [] (terminalInitialize t) where
  row := (by decide : 0 < vgaHeight)
  column := (by decide : 0 < vgaWidth)
  outside i past := if_neg (Nat.not_lt_of_le past)
  blank i _ inside := by simp [terminalInitialize, terminalClear, inside]
  line := ⟨[], [], rfl, rfl, by simp, by simp⟩

/-- A line that ends leaves blanks from the next row on, which may be the first row
of a cleared screen. -/
theorem nextRow_shows {memory : Nat → Cell} {text : List Byte} {t : Terminal} (row : t.row < vgaHeight)
    (outside : ∀ i, vgaHeight * vgaWidth ≤ i → t.buffer i = memory i)
    (blank : ∀ i, (t.row + 1) * vgaWidth ≤ i → i < vgaHeight * vgaWidth → (t.buffer i).char = 32) :
    Shows memory text (nextRow t) := by
  unfold nextRow
  dsimp only
  split
  · constructor
    · exact (by decide : 0 < vgaHeight)
    · exact (by decide : 0 < vgaWidth)
    · intro i past
      simp [terminalClear, Nat.not_lt_of_le past, outside i past]
    · intro i _ inside
      simp [terminalClear, inside]
    · exact ⟨text, [], by simp, rfl, by simp, by simp⟩
  · rename_i more
    constructor
    · exact Nat.lt_of_le_of_ne row more
    · exact (by decide : 0 < vgaWidth)
    · exact outside
    · exact blank
    · exact ⟨text, [], by simp, rfl, by simp, by simp⟩

/- A cell that is written within the screen, before the cursor moves. -/
theorem Shows.outside_put {memory : Nat → Cell} {text : List Byte} {t : Terminal} (state : Shows memory text t)
    (c : Byte) {i : Nat} (past : vgaHeight * vgaWidth ≤ i) :
    (terminalPutentryat t c t.color t.column t.row).buffer i = memory i := by
  have row := state.row
  have column := state.column
  have other : i ≠ t.row * vgaWidth + t.column := by
    unfold vgaHeight vgaWidth at *
    omega
  simp [terminalPutentryat, other, state.outside i past]

theorem Shows.blank_put {memory : Nat → Cell} {text : List Byte} {t : Terminal} (state : Shows memory text t)
    (c : Byte) {i : Nat} (past : t.row * vgaWidth + (t.column + 1) ≤ i) (inside : i < vgaHeight * vgaWidth) :
    ((terminalPutentryat t c t.color t.column t.row).buffer i).char = 32 := by
  have other : i ≠ t.row * vgaWidth + t.column := by omega
  have before := state.blank i (by omega) inside
  simpa [terminalPutentryat, other] using before

/- The line of the cursor gets one more character. -/
theorem Shows.line_put {memory : Nat → Cell} {text : List Byte} {t : Terminal} (state : Shows memory text t)
    {c : Byte} (newline : c ≠ 10) :
    ∃ before line, text ++ [c] = before ++ line ∧ line.length = t.column + 1 ∧ 10 ∉ line ∧
      ∀ k (h : k < line.length), ((terminalPutentryat t c t.color t.column t.row).buffer (t.row * vgaWidth + k)).char =
        line.get ⟨k, h⟩ := by
  obtain ⟨before, line, split, length, nonewline, shown⟩ := state.line
  refine ⟨before, line ++ [c], by simp [split], by simp [length], ?_, ?_⟩
  · intro mem
    rcases List.mem_append.mp mem with old | new
    · exact nonewline old
    · exact newline (List.mem_singleton.mp new).symm
  · intro k h
    by_cases last : k = line.length
    · subst k
      simp [terminalPutentryat, length]
    · have inside : k < line.length := by
        simp at h
        omega
      have other : t.row * vgaWidth + k ≠ t.row * vgaWidth + t.column := by omega
      have old : (line ++ [c]).get ⟨k, h⟩ = line.get ⟨k, inside⟩ := List.getElem_append_left inside
      rw [old, ← shown k inside]
      exact congrArg Cell.char (Function.update_of_ne other ..)

theorem Shows.putchar {memory : Nat → Cell} {text : List Byte} {t : Terminal} (state : Shows memory text t)
    (c : Byte) : Shows memory (text ++ [c]) (terminalPutchar t c) := by
  unfold terminalPutchar
  split
  · apply nextRow_shows state.row state.outside
    intro i past inside
    have column := state.column
    apply state.blank i _ inside
    rw [Nat.add_mul] at past
    omega
  · rename_i newline
    dsimp only
    split
    · rename_i full
      apply nextRow_shows
      · exact state.row
      · intro i past
        exact state.outside_put c past
      · intro i past inside
        apply state.blank_put c _ inside
        change t.column + 1 = vgaWidth at full
        change (t.row + 1) * vgaWidth ≤ i at past
        rw [Nat.add_mul] at past
        omega
    · rename_i more
      constructor
      · exact state.row
      · exact Nat.lt_of_le_of_ne state.column more
      · intro i past
        exact state.outside_put c past
      · intro i past inside
        exact state.blank_put c past inside
      · exact state.line_put newline

theorem Shows.setcolor {memory : Nat → Cell} {text : List Byte} {t : Terminal} (state : Shows memory text t)
    (color : Byte) : Shows memory text (terminalSetcolor t color) :=
  ⟨state.row, state.column, state.outside, state.blank, state.line⟩

theorem Shows.run {memory : Nat → Cell} {text : List Byte} {t : Terminal} (state : Shows memory text t)
    (calls : List TtyCall) : Shows memory (text ++ written calls) (calls.foldl tty t) := by
  induction calls generalizing t text with
  | nil => simpa [written] using state
  | cons call calls ih =>
    cases call with
    | putchar c => simpa [written, tty] using ih (state.putchar c)
    | setcolor color => simpa [written, tty] using ih (state.setcolor color)

/-- After any calls the cursor is on the screen, memory past the screen is as it was,
the cells from the cursor on are blank, and those of its row left of it hold the
last characters written. -/
theorem terminal_shows (t : Terminal) (calls : List TtyCall) :
    ∃ u, calls.foldl tty (terminalInitialize t) = u ∧ u.row < 25 ∧ u.column < 80 ∧
      u.row * 80 + u.column < 2000 ∧ (∀ i, 2000 ≤ i → u.buffer i = t.buffer i) ∧
      (∀ i, u.row * 80 + u.column ≤ i → i < 2000 → (u.buffer i).char = 32) ∧
      ∃ before line, written calls = before ++ line ∧ line.length = u.column ∧ 10 ∉ line ∧
        ∀ k (h : k < line.length), (u.buffer (u.row * 80 + k)).char = line.get ⟨k, h⟩ := by
  have state := (terminalInitialize_shows t).run calls
  have row : _ < 25 := state.row
  have column : _ < 80 := state.column
  exact ⟨_, rfl, row, column, by omega, state.outside, state.blank, state.line⟩

end Icix
