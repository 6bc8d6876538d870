import Icix.Library.Fuel
import Icix.Fs.Directory
import Icix.Libc.Text

/-! print_file and print_fs_contents of kernel.c, by fuel and over what they call, and what they print
themselves. A descent is a call of print_fs_contents for an entry of the directory it prints. -/
namespace Icix
open Bytes Runs Fuel

/- printf; an argument or a format that it reads past is read outside an object. -/
def printf (floats : Libc.Floats) (mem : Nat → Byte) (format : List Byte) (args : List Word) :
    Except Fault (List Byte) :=
  match Libc.vprintf floats format args mem with
  | .ok s => .ok s.out
  | .error _ => .error .outOfBounds

/- What printf prints for a double, the bytes from an uninitialised local on, and those
after the literals. -/
structure Console where
  floats : Libc.Floats
  junk : Nat → Byte
  rodata : Nat → Byte

/- printf of a format; a %s gets its address counted from mem. -/
def Console.say (con : Console) (mem : Nat → Byte) (format : String) (args : List Word) : Timed Fault (List Byte) :=
  once (printf con.floats mem (Libc.bytes format) args)

/- strcmp(et.name, ".") && strcmp(et.name, ".."). -/
def isOther (con : Console) (et : Nat → Byte) : Except Fault Bool :=
  match strcmp 32 et (dot con.rodata).mem, strcmp 32 et (dotdot con.rodata).mem with
  | some r, some s => .ok (decide (r ≠ 0 ∧ s ≠ 0))
  | _, _ => .error .outOfBounds

/- The functions that they call, on what these change. -/
structure Services (σ : Type) where
  ufsRead (s : σ) (inum : Int) (buffer : Nat → Byte) (offset nbytes : Int) : Except Fault ((Int × (Nat → Byte)) × σ)
  malloc (s : σ) (size : Word) : Except Fault σ

/- ufs_read of a mounted disk does not change it. -/
def Ufs.services {σ : Type} (b : Build) (u : Ufs) (malloc : σ → Word → Except Fault σ) : Services σ where
  ufsRead s inum buffer offset nbytes := (Icix.ufsRead b u inum buffer offset nbytes).map fun out => (out, s)
  malloc := malloc

section Print

variable {σ : Type} (con : Console) (sys : Services σ)

/- The loop of print_file. -/
def printBytes (inum : Int) : Nat → Int → (Nat → Byte) → σ → Timed Fault (List Byte × σ)
  | 0, _, _, _ => .error .fuel
  | fuel + 1, offset, c, s => do
    let ((r, c), s) ← once (sys.ufsRead s inum c offset 1)
    if r ≠ 0 then .ok ([], s)
    else do
      let out ← con.say con.junk "%c" [(c 0).signExtend 32]
      let (rest, s) ← printBytes inum fuel (int32 (offset + 1)) c s
      .ok (out ++ rest, s)

def printFile (fuel : Nat) (inum : Int) (s : σ) : Timed Fault (List Byte × σ) := do
  let line ← con.say con.junk "\n" []
  let title ← con.say con.junk "contents of file (inode no. %d): \n    " [BitVec.ofInt 32 inum]
  let s ← once (sys.malloc s 1)
  let (contents, s) ← printBytes con sys inum fuel 0 con.junk s
  let last ← con.say con.junk "\n" []
  .ok (line ++ title ++ contents ++ last, s)

/- The first loop of print_fs_contents, which lists the entries from an offset on. -/
def listEntries (inum : Int) : Nat → Int → (Nat → Byte) → σ → Timed Fault ((List Byte × (Nat → Byte)) × σ)
  | 0, _, _, _ => .error .fuel
  | fuel + 1, offset, et, s => do
    let ((r, et), s) ← once (sys.ufsRead s inum et offset 32)
    if r ≠ 0 ∨ entInum et = -1 then .ok (([], et), s)
    else do
      let out ← con.say et "(%d, %s),  " [entInum et, 0]
      let ((rest, et), s) ← listEntries inum fuel (int32 (offset + 32)) et s
      .ok ((out ++ rest, et), s)

/- What the second loop does with an entry: it takes every name that starts with a 'd' for a
directory's. -/
def printEntry (et : Nat → Byte) (directory file : σ → Timed Fault (List Byte × σ)) (s : σ) :
    Timed Fault (List Byte × σ) :=
  if et 0 = Libc.ch 'd' then directory s
  else do
    let other ← once (isOther con et)
    if other then file s else .ok ([], s)

mutual

def printFsContents : Nat → Int → σ → Timed Fault (List Byte × σ)
  | 0, _, _ => .error .fuel
  | fuel + 1, inum, s => do
    let line ← con.say con.junk "\n" []
    let title ← con.say con.junk "contents of directory (inode no. %d) [fmt: (inode no., name)]: \n    "
      [BitVec.ofInt 32 inum]
    let ((entries, et), s) ← listEntries con sys inum fuel 0 con.junk s
    let last ← con.say con.junk "\n" []
    let (inner, s) ← printEntries fuel inum 0 et s
    .ok (line ++ title ++ entries ++ last ++ inner, s)

/- The second loop of print_fs_contents. -/
def printEntries : Nat → Int → Int → (Nat → Byte) → σ → Timed Fault (List Byte × σ)
  | 0, _, _, _, _ => .error .fuel
  | fuel + 1, inum, offset, et, s => do
    let ((r, et), s) ← once (sys.ufsRead s inum et offset 32)
    if r ≠ 0 ∨ entInum et = -1 then .ok ([], s)
    else do
      let (out, s) ← printEntry con et (printFsContents fuel (entInum et).toInt)
        (printFile con sys fuel (entInum et).toInt) s
      let (rest, s) ← printEntries fuel inum (int32 (offset + 32)) et s
      .ok (out ++ rest, s)

end

end Print

/- The text for a file, its number first. -/
def fileText (inum : Nat) (contents : List Byte) : List Byte :=
  Libc.bytes "\n" ++ (Libc.bytes "contents of file (inode no. " ++ Libc.cutDecimal inum ++ Libc.bytes "): \n    ") ++
    contents ++ Libc.bytes "\n"

def entryText (e : List Byte × Nat) : List Byte :=
  Libc.bytes "(" ++ Libc.cutDecimal e.2 ++ Libc.bytes ", " ++ e.1 ++ Libc.bytes "),  "

/- What print_fs_contents prints for a directory before its entries. -/
def titleText (inum : Nat) : List Byte :=
  Libc.bytes "contents of directory (inode no. " ++ Libc.cutDecimal inum ++ Libc.bytes ") [fmt: (inode no., name)]: \n    "

/-- The bytes read stand for the entry. -/
def IsEntry (m : Nat → Byte) (e : List Byte × Nat) : Prop := EntryAt m e.1 e.2

/-- A char is promoted to an int and printed as the char it was. -/
theorem printf_char (floats : Libc.Floats) (mem : Nat → Byte) (c : Byte) :
    printf floats mem [Libc.ch '%', Libc.ch 'c'] [c.signExtend 32] = .ok [c] := by
  have same : (c.signExtend 32).setWidth 8 = c := by
    apply BitVec.eq_of_getLsbD_eq
    intro k hk
    rw [BitVec.getLsbD_setWidth, BitVec.getLsbD_signExtend]
    simp [hk, Nat.lt_of_lt_of_le hk (show 8 ≤ 32 by decide)]
  have emitted : Libc.emit floats (Libc.bare (Libc.ch 'c')) 0 6 mem [c.signExtend 32] = .ok ([c], []) := by
    change Libc.emitCharacter [c.signExtend 32] = _
    simp only [Libc.emitCharacter, Libc.vaArg, ok_bind, same]
  rw [printf, Libc.vprintf_bare floats (by decide), emitted]
  rfl

section Said

variable (con : Console)

theorem Console.says {mem : Nat → Byte} {format : String} {args : List Word} {text : List Byte}
    (short : (Libc.bytes format).length < 2147483648)
    (types : Libc.Types con.floats mem (Libc.bytes format ++ [0]) args text) : con.say mem format args = .ok text := by
  obtain ⟨s, printed, out⟩ := Libc.vprintf_types short types
  exact once_ok.mpr (by rw [printf, printed, ← out])

theorem says_line (mem : Nat → Byte) : con.say mem "\n" [] = .ok (Libc.bytes "\n") :=
  con.says (by decide) (Libc.types_plain _ (by decide) (Libc.types_nul []))

/- Literal text, a %d and literal text. -/
theorem says_number (mem : Nat → Byte) (format front back : String) {v : Int} (low : -2147483648 < v)
    (high : v < 2147483648)
    (split : Libc.bytes format = Libc.bytes front ++ Libc.ch '%' :: Libc.ch 'd' :: Libc.bytes back)
    (short : (Libc.bytes format).length < 2147483648)
    (plain : ∀ c ∈ Libc.bytes front ++ Libc.bytes back, c ≠ 0 ∧ c ≠ Libc.ch '%') :
    con.say mem format [BitVec.ofInt 32 v] = .ok (Libc.bytes front ++ Libc.cutDecimal v ++ Libc.bytes back) := by
  have value : (BitVec.ofInt 32 v).toInt = v := by
    rw [BitVec.toInt_ofInt]
    exact int32_eq (by omega) (by omega)
  refine con.says short ?_
  simpa [split, value] using
    Libc.types_number (Libc.bytes front) (Libc.bytes back) plain (v := BitVec.ofInt 32 v) (by omega)

theorem says_title (mem : Nat → Byte) {inum : Nat} (small : inum < 2147483648) :
    con.say mem "contents of directory (inode no. %d) [fmt: (inode no., name)]: \n    " [BitVec.ofInt 32 inum] =
      .ok (titleText inum) :=
  says_number con mem _ "contents of directory (inode no. " ") [fmt: (inode no., name)]: \n    " (by omega) (by omega)
    (by decide +kernel) (by decide +kernel) (by decide +kernel)

theorem says_entry {m : Nat → Byte} {e : List Byte × Nat} (entry : IsEntry m e) :
    con.say m "(%d, %s),  " [entInum m, 0] = .ok (entryText e) := by
  have value := entry.used.2
  have short := entry.short
  have tail : Libc.Types con.floats m (Libc.bytes "),  " ++ [0]) [] (Libc.bytes "),  " ++ []) :=
    Libc.types_plain _ (by decide) (Libc.types_nul [])
  have name := Libc.types_string (p := 0) (view_zero m ▸ entry.holds) (by omega) tail
  have number := Libc.types_percentD (v := entInum m) (by omega) (Libc.types_plain (Libc.bytes ", ") (by decide) name)
  have whole := Libc.types_plain (Libc.bytes "(") (by decide) number
  have split : Libc.bytes "(%d, %s),  " = Libc.bytes "(" ++ Libc.ch '%' :: Libc.ch 'd' ::
      (Libc.bytes ", " ++ Libc.ch '%' :: Libc.ch 's' :: Libc.bytes "),  ") := by decide
  refine con.says (by decide) ?_
  simpa [entryText, value, split] using whole

theorem says_char (mem : Nat → Byte) (c : Byte) : con.say mem "%c" [c.signExtend 32] = .ok [c] :=
  once_ok.mpr (printf_char con.floats mem c)

end Said

theorem isOther_name (con : Console) {m : Nat → Byte} {name : List Byte} (holds : Holds m name) (short : name.length < 32) :
    isOther con m = .ok (decide (name ≠ [46] ∧ name ≠ [46, 46])) := by
  obtain ⟨r, self, zero⟩ := strcmp_holds holds (dot con.rodata).holds (.inl short)
  obtain ⟨s, up, zero'⟩ := strcmp_holds holds (dotdot con.rodata).holds (.inl short)
  have same : (r ≠ 0 ∧ s ≠ 0) ↔ name ≠ [46] ∧ name ≠ [46, 46] := and_congr (not_congr zero) (not_congr zero')
  simp only [isOther, self, up, same]

section Read

variable {σ : Type} {b : Build} {u : Ufs} {malloc : σ → Word → Except Fault σ}

/-- A read of a mounted disk in these functions. -/
@[simp] theorem services_ufsRead (s : σ) (inum : Int) (buffer : Nat → Byte) (offset nbytes : Int) :
    (u.services b malloc).ufsRead s inum buffer offset nbytes =
      (ufsRead b u inum buffer offset nbytes).map fun out => (out, s) := rfl

end Read

end Icix
