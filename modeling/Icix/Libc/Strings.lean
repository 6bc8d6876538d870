import Icix.Library.Runs
import Icix.Libc.IntStr
import Icix.Libc.Order

/-! The loops of strlen, memcpy, strcpy and strcat in libc/string, over arrays that every
access is checked against. -/
namespace Icix.Libc
open Bytes

structure Buffer where
  size : Nat
  byte : Nat → Byte

namespace Buffer

def get (b : Buffer) (i : Nat) : Except Stray Byte :=
  if i < b.size then .ok (b.byte i) else .error .buffer

def set (b : Buffer) (i : Nat) (c : Byte) : Except Stray Buffer :=
  if i < b.size then .ok { b with byte := Function.update b.byte i c } else .error .buffer

/- while (str[len]) len++; where left bytes of the array are ahead. -/
def lengthFrom (b : Buffer) : Nat → Nat → Except Stray Nat
  | 0, _ => .error .buffer
  | left + 1, len => do
    let c ← b.get len
    if c ≠ 0 then lengthFrom b left (len + 1) else .ok len

def strlen (b : Buffer) : Except Stray Nat := b.lengthFrom b.size 0

/- dst[i] = src[i], from i on. -/
def copyFrom (src : Buffer) : Nat → Nat → Buffer → Except Stray Buffer
  | 0, _, dst => .ok dst
  | left + 1, i, dst => do
    let c ← src.get i
    let dst ← dst.set i c
    copyFrom src left (i + 1) dst

def memcpy (dst src : Buffer) (size : Nat) : Except Stray Buffer := copyFrom src size 0 dst

/-- The size of a char *, which is what sizeof(src) is. -/
def sizeofSrc : Nat := 4

def strcpy (dest src : Buffer) : Except Stray Buffer := memcpy dest src (sizeofSrc + 1)

/- while (*dest++ = *src++) ; with dest at k and src at i. -/
def appendFrom (src : Buffer) : Nat → Nat → Nat → Buffer → Except Stray Buffer
  | 0, _, _, _ => .error .buffer
  | left + 1, i, k, dest => do
    let c ← src.get i
    let dest ← dest.set k c
    if c ≠ 0 then appendFrom src left (i + 1) (k + 1) dest else .ok dest

/- The loop that moves dest to its NUL is strlen's. -/
def strcat (dest src : Buffer) : Except Stray Buffer := do
  let k ← dest.strlen
  appendFrom src src.size 0 k dest

theorem get_ok {b : Buffer} {i : Nat} (inside : i < b.size) : b.get i = .ok (b.byte i) := if_pos inside

theorem set_ok {b : Buffer} {i : Nat} (inside : i < b.size) (c : Byte) :
    b.set i c = .ok { b with byte := Function.update b.byte i c } := if_pos inside

theorem copyFrom_ok {src dst : Buffer} {left i : Nat} (hs : i + left ≤ src.size) (hd : i + left ≤ dst.size) :
    copyFrom src left i dst = .ok { dst with byte := blit dst.byte i left (view src.byte i) } := by
  induction left generalizing i dst with
  | zero =>
    rw [blit_zero]
    rfl
  | succ left ih =>
    have first : Function.update dst.byte i (src.byte i) = blit dst.byte i 1 (view src.byte i) := by
      rw [blit_succ, blit_zero]
      rfl
    rw [copyFrom, get_ok (by omega), Runs.ok_bind, set_ok (by omega), Runs.ok_bind, ih (by omega) (by dsimp only; omega),
      first, ← view_view, blit_append, Nat.add_comm 1 left]

/-- memcpy reads every byte that it is asked for. -/
theorem copyFrom_short {src dst : Buffer} {left i : Nat} (below : i ≤ src.size) (past : src.size < i + left) :
    ∃ e, copyFrom src left i dst = .error e := by
  induction left generalizing i dst with
  | zero => omega
  | succ left ih =>
    rw [copyFrom]
    by_cases inside : i < src.size
    · rw [get_ok inside, Runs.ok_bind]
      cases stored : dst.set i (src.byte i) with
      | error e => exact ⟨e, rfl⟩
      | ok dst =>
        rw [Runs.ok_bind]
        exact ih inside (by omega)
    · have stray : src.get i = .error .buffer := if_neg inside
      rw [stray]
      exact ⟨_, rfl⟩

theorem lengthFrom_ok {b : Buffer} {left len : Nat} {cs : List Byte} (holds : Holds (view b.byte len) cs)
    (short : cs.length < left) (inside : len + left ≤ b.size) : b.lengthFrom left len = .ok (len + cs.length) := by
  induction cs generalizing left len with
  | nil =>
    cases left with
    | zero => exact absurd short (Nat.not_lt_zero _)
    | succ left =>
      have nul : b.byte len = 0 := holds
      rw [lengthFrom, get_ok (by omega), Runs.ok_bind, nul, if_neg (not_not.mpr rfl)]
      rfl
  | cons c cs ih =>
    cases left with
    | zero => exact absurd short (Nat.not_lt_zero _)
    | succ left =>
      obtain ⟨first, nonzero, rest⟩ := holds
      have more : b.byte len ≠ 0 := fun nul => nonzero (first.symm.trans nul)
      have tail : Holds (view b.byte (len + 1)) cs := view_view b.byte len 1 ▸ rest
      rw [lengthFrom, get_ok (by omega), Runs.ok_bind, if_pos more, ih tail (Nat.lt_of_succ_lt_succ short) (by omega),
        List.length_cons, Nat.add_assoc, Nat.add_comm 1]

theorem appendFrom_ok {src dest : Buffer} {left i k : Nat} {cs : List Byte} (holds : Holds (view src.byte i) cs)
    (short : cs.length < left) (inside : i + left ≤ src.size) (room : k + cs.length + 1 ≤ dest.size) :
    appendFrom src left i k dest = .ok { dest with byte := blit dest.byte k (cs.length + 1) (view src.byte i) } := by
  induction cs generalizing left i k dest with
  | nil =>
    cases left with
    | zero => exact absurd short (Nat.not_lt_zero _)
    | succ left =>
      have nul : src.byte i = 0 := holds
      have last : Function.update dest.byte k 0 = blit dest.byte k 1 (view src.byte i) := by
        rw [blit_succ, blit_zero]
        exact congrArg (Function.update dest.byte k) nul.symm
      rw [appendFrom, get_ok (by omega), Runs.ok_bind, nul, set_ok (by omega), Runs.ok_bind, if_neg (not_not.mpr rfl),
        last]
      rfl
  | cons c cs ih =>
    cases left with
    | zero => exact absurd short (Nat.not_lt_zero _)
    | succ left =>
      obtain ⟨first, nonzero, rest⟩ := holds
      have more : src.byte i ≠ 0 := fun nul => nonzero (first.symm.trans nul)
      have next := view_view src.byte i 1
      have stored : Function.update dest.byte k (src.byte i) = blit dest.byte k 1 (view src.byte i) := by
        rw [blit_succ, blit_zero]
        rfl
      rw [List.length_cons] at short room ⊢
      rw [appendFrom, get_ok (by omega), Runs.ok_bind, set_ok (by omega), Runs.ok_bind, if_pos more,
        ih (next ▸ rest) (by omega) (by omega) (by dsimp only; omega), stored, ← next, blit_append,
        Nat.add_comm 1 (cs.length + 1)]

theorem strlen_ok {b : Buffer} {cs : List Byte} (holds : Holds b.byte cs) (short : cs.length < b.size) :
    b.strlen = .ok cs.length := by
  have counted := @lengthFrom_ok b b.size 0 cs ((view_zero b.byte).symm ▸ holds) short (Nat.le_of_eq (Nat.zero_add _))
  rw [strlen, counted, Nat.zero_add]

end Buffer

section Builders

variable {dest src : Buffer} {s : List Byte} (holds : Holds src.byte s) (whole : src.size = s.length + 1)
include holds whole

/-- strcat appends every string for which there is room. -/
theorem Buffer.strcat_ok {ds : List Byte} (start : Holds dest.byte ds) (room : ds.length + s.length + 1 ≤ dest.size) :
    ∃ d, dest.strcat src = .ok d ∧ Holds d.byte (ds ++ s) := by
  have appended := @appendFrom_ok src dest src.size 0 ds.length s ((view_zero src.byte).symm ▸ holds) (by omega)
    (Nat.le_of_eq (Nat.zero_add _)) room
  rw [view_zero] at appended
  refine ⟨{ dest with byte := blit dest.byte ds.length (s.length + 1) src.byte }, ?_,
    holds_append start (fun k inside => blit_outside _ _ (.inl inside)) ?_⟩
  · rw [Buffer.strcat, strlen_ok start (by omega), Runs.ok_bind, appended]
  · refine holds_congr (fun k inside => ?_) holds
    exact (blit_inside dest.byte src.byte (Nat.lt_succ_of_le inside)).symm

end Builders

/- The functions by which __int_str is modelled are these loops. -/
theorem strcpy_loop {dest src : Buffer} (hs : 5 ≤ src.size) (hd : 5 ≤ dest.size) :
    dest.strcpy src = .ok { dest with byte := strcpy dest.byte src.byte } := by
  have copied := @Buffer.copyFrom_ok src dest 5 0 (by omega) (by omega)
  rw [view_zero] at copied
  exact copied

theorem strlen_some {size k : Nat} {b : Nat → Byte} (found : strlen size b = .ok k) :
    ∃ cs, Holds b cs ∧ cs.length = k ∧ k < size := by
  unfold strlen stringIn at found
  split at found
  · rename_i cs read
    obtain ⟨holds, short⟩ := readString_eq_some.mp read
    cases Except.ok.inj found
    exact ⟨cs, holds, rfl, short⟩
  · cases found

theorem strlen_loop {b : Buffer} {k : Nat} (found : strlen b.size b.byte = .ok k) : b.strlen = .ok k := by
  obtain ⟨cs, holds, rfl, short⟩ := strlen_some found
  exact Buffer.strlen_ok holds short

theorem strcat_loop {dest src : Buffer} {byte : Nat → Byte}
    (appended : strcat dest.size src.size dest.byte src.byte = .ok byte) :
    dest.strcat src = .ok { dest with byte := byte } := by
  obtain ⟨k, found, appended⟩ := Runs.bind_ok.mp appended
  obtain ⟨n, foundSrc, appended⟩ := Runs.bind_ok.mp appended
  obtain ⟨cs, holds, rfl, short⟩ := strlen_some foundSrc
  split at appended
  · rename_i room
    cases Except.ok.inj appended
    have looped := @Buffer.appendFrom_ok src dest src.size 0 k cs ((view_zero src.byte).symm ▸ holds) short
      (Nat.le_of_eq (Nat.zero_add _)) room
    rw [view_zero] at looped
    rw [Buffer.strcat, strlen_loop found, Runs.ok_bind, looped]
  · cases appended

/-- After strcpy dest holds exactly s, its bytes behind the NUL are as before, and strlen and
strcmp find s in it. An array of the bytes of s and its NUL is enough for it to read. -/
def CopiesString (dest src : Buffer) (s : List Byte) : Prop :=
  ∃ d, dest.strcpy src = .ok d ∧ Holds d.byte s ∧ (∀ k, s.length < k → d.byte k = dest.byte k) ∧
    strcmp (s.length + 1) d.byte src.byte = some 0 ∧ d.strlen = .ok s.length

def AppendsString (dest src : Buffer) (s : List Byte) : Prop :=
  ∀ ds, Holds dest.byte ds → ds.length + s.length + 1 ≤ dest.size →
    ∃ d, dest.strcat src = .ok d ∧ Holds d.byte (ds ++ s)

/-- strcat always means what its name says. strcpy copies as many bytes as a pointer has and
one more: it does for a string of that many characters, and for a longer one whose other
bytes are in dest already. -/
theorem string_builders {dest src : Buffer} {s : List Byte} (holds : Holds src.byte s)
    (whole : src.size = s.length + 1) (room : s.length + 1 ≤ dest.size) :
    CopiesString dest src s ∧ AppendsString dest src s ↔
      4 ≤ s.length ∧ ∀ k, 5 ≤ k → k ≤ s.length → dest.byte k = src.byte k := by
  have appends : AppendsString dest src s := fun ds start room => Buffer.strcat_ok holds whole start room
  by_cases long : 4 ≤ s.length
  · have copied : dest.strcpy src = .ok { dest with byte := blit dest.byte 0 5 (view src.byte 0) } :=
      @Buffer.copyFrom_ok src dest 5 0 (by omega) (by omega)
    rw [view_zero] at copied
    have first : ∀ k < 5, blit dest.byte 0 5 src.byte k = src.byte k := by
      intro k inside
      have block := blit_inside dest.byte src.byte (a := 0) inside
      rwa [Nat.zero_add] at block
    have later : ∀ k, 5 ≤ k → blit dest.byte 0 5 src.byte k = dest.byte k :=
      fun k outside => blit_outside _ _ (.inr outside)
    constructor
    · rintro ⟨⟨d, ran, built, -⟩, -⟩
      rw [copied] at ran
      cases Except.ok.inj ran
      exact ⟨long, fun k low high => (later k low).symm.trans (holds_same built holds high)⟩
    · rintro ⟨-, same⟩
      have built : Holds (blit dest.byte 0 5 src.byte) s := by
        refine holds_congr (fun k inside => ?_) holds
        by_cases start : k < 5
        · exact (first k start).symm
        · rw [later k (by omega), same k (by omega) inside]
      refine ⟨⟨_, copied, built, fun k behind => later k (by omega), ?_, ?_⟩, appends⟩
      · rw [strcmp_eq built holds (.inl (Nat.lt_succ_self _))]
        exact congrArg some ((difference_zero_iff (holds_nonzero holds) (holds_nonzero holds)).mpr rfl)
      · exact Buffer.strlen_ok built room
  · obtain ⟨e, stray⟩ : ∃ e, dest.strcpy src = .error e :=
      @Buffer.copyFrom_short src dest 5 0 (Nat.zero_le _) (by omega)
    constructor
    · rintro ⟨⟨d, ran, -⟩, -⟩
      rw [stray] at ran
      cases ran
    · exact fun ⟨four, _⟩ => absurd four long

/- An array that is a string of the given characters, and one of 256 zeros. -/
def stringBuffer (s : List Byte) : Buffer := ⟨s.length + 1, fun k => s.getD k 0⟩

def zeroBuffer : Buffer := ⟨256, zeros⟩

theorem string_builders_four :
    CopiesString zeroBuffer (stringBuffer [ch 'i', ch 'c', ch 'i', ch 'x']) [ch 'i', ch 'c', ch 'i', ch 'x'] :=
  ((string_builders (by decide) rfl (by decide)).mpr ⟨by decide, fun k low high => absurd (Nat.le_trans low high) (by decide)⟩).1

/-- A name of two characters is read past its NUL, and one of eight is cut after five. -/
theorem strcpy_by_pointer_size :
    ¬ CopiesString zeroBuffer (stringBuffer [ch 'f', ch 's']) [ch 'f', ch 's'] ∧
      ∃ d, zeroBuffer.strcpy (stringBuffer [ch 'u', ch 'f', ch 's', ch '_', ch 'i', ch 'n', ch 'i', ch 't']) = .ok d ∧
        Holds d.byte [ch 'u', ch 'f', ch 's', ch '_', ch 'i'] := by
  constructor
  · rintro ⟨d, ran, -⟩
    have stray : zeroBuffer.strcpy (stringBuffer [ch 'f', ch 's']) = .error .buffer := rfl
    rw [stray] at ran
    cases ran
  · exact ⟨_, rfl, by decide⟩

end Icix.Libc
