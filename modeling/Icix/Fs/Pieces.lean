import Icix.Fs.Dirty
import Icix.Fs.Bounds
import Icix.Fs.Print

/-! Reads of consecutive pieces of a file against one read of them all. Either gets the
bytes that reads of one byte each get, so it makes no difference where a range is cut. -/
namespace Icix
open Bytes Runs Fuel

/-- ufs_read for pieces of the given lengths, one after the other and each into a buffer of
its own: the results, and the bytes that the buffers then have. -/
def readPieces (b : Build) (u : Ufs) (inum : Int) :
    Int → List (Int × (Nat → Byte)) → Except Fault (List (Int × List Byte))
  | _, [] => .ok []
  | offset, (n, buffer) :: pieces => do
    let (r, out) ← ufsRead b u inum buffer offset n
    let outs ← readPieces b u inum (offset + n) pieces
    .ok ((r, (List.range n.toNat).map out) :: outs)

def total (pieces : List (Int × (Nat → Byte))) : Int := (pieces.map Prod.fst).sum

/-- One read returns 0 and these bytes. -/
def Ufs.Delivers (b : Build) (u : Ufs) (i : Nat) (offset n : Int) (buffer : Nat → Byte) (cs : List Byte) : Prop :=
  ∃ out, ufsRead b u i buffer offset n = .ok (0, out) ∧ (List.range n.toNat).map out = cs

/-- All reads of a range in pieces return 0, and these bytes together. -/
def Ufs.DeliversPieces (b : Build) (u : Ufs) (i : Nat) (offset : Int) (pieces : List (Int × (Nat → Byte)))
    (cs : List Byte) : Prop :=
  ∃ outs, readPieces b u i offset pieces = .ok outs ∧ (∀ r ∈ outs, r.1 = 0) ∧ outs.flatMap Prod.snd = cs

theorem total_cons (p : Int × (Nat → Byte)) (pieces : List (Int × (Nat → Byte))) :
    total (p :: pieces) = p.1 + total pieces := List.sum_cons

theorem total_nonneg {pieces : List (Int × (Nat → Byte))} (positive : ∀ p ∈ pieces, 0 < p.1) : 0 ≤ total pieces := by
  induction pieces with
  | nil => exact Int.le_refl 0
  | cons p pieces ih =>
    have first := positive p List.mem_cons_self
    have rest := ih fun q inside => positive q (List.mem_cons_of_mem _ inside)
    rw [total_cons]
    omega

/-- The first piece delivers what comes first. -/
theorem deliversPieces_cons {b : Build} {u : Ufs} {i : Nat} {offset n : Int} {buffer : Nat → Byte}
    {pieces : List (Int × (Nat → Byte))} {cs : List Byte} :
    u.DeliversPieces b i offset ((n, buffer) :: pieces) cs ↔
      ∃ front back, cs = front ++ back ∧ u.Delivers b i offset n buffer front ∧
        u.DeliversPieces b i (offset + n) pieces back := by
  unfold Ufs.DeliversPieces Ufs.Delivers
  constructor
  · rintro ⟨outs, returned, zeros, rfl⟩
    obtain ⟨⟨r, out⟩, first, later⟩ := bind_ok.mp returned
    obtain ⟨others, rest, same⟩ := bind_ok.mp later
    cases same
    have zero : r = 0 := zeros _ List.mem_cons_self
    refine ⟨_, _, List.flatMap_cons, ⟨out, by rw [first, zero], rfl⟩, others, rest, fun q inside => ?_, rfl⟩
    exact zeros q (List.mem_cons_of_mem _ inside)
  · rintro ⟨_, _, rfl, ⟨out, first, rfl⟩, others, rest, zeros, rfl⟩
    refine ⟨(0, (List.range n.toNat).map out) :: others, ?_, ?_, List.flatMap_cons⟩
    · simp only [readPieces, first, ok_bind, rest]
    · rintro q inside
      rcases List.mem_cons.mp inside with rfl | later
      · rfl
      · exact zeros q later

section Regular

variable {b : Build} {u : Ufs} {i : Nat} {offset n : Int} (live : u.allocated i)
  (regular : (u.inodes i).type = ufsRegularFile) (low : 0 ≤ offset)
include live regular low

/-- Below the end of a file, one read delivers what reads of one byte each get. -/
theorem delivers_fetch (positive : 0 < n) (size : offset + n ≤ (u.inodes i).size.toInt) (blocks : offset + n ≤ 122880)
    (buffer : Nat → Byte) (cs : List Byte) :
    u.Delivers b i offset n buffer cs ↔ (List.range' offset.toNat n.toNat).map (u.fetch b i) = cs.map some := by
  have readable : u.Readable i offset n := by
    refine (readable_regular live regular).mpr ⟨low, positive, ?_⟩
    rw [int32_eq (by omega) (by omega)]
    exact size
  have range : List.range' offset.toNat n.toNat = (List.range n.toNat).map (offset.toNat + ·) := by
    rw [List.range_eq_range', List.map_add_range', Nat.add_zero]
  rw [range, List.map_map, Ufs.Delivers, ufsRead_readable readable]
  simp only [map_ok, readLoop_fetched (Position.init _ _), Int.toNat_natCast, Prod.mk.injEq, true_and,
    exists_eq_right]
  constructor
  · rintro ⟨out, fetched, rfl⟩
    rw [List.map_map]
    refine List.map_congr_left fun k inside => ?_
    have hk := List.mem_range.mp inside
    have at_k := fetched k
    rwa [if_pos (by omega)] at at_k
  · intro fetched
    have length := congrArg List.length fetched
    rw [List.length_map, List.length_map, List.length_range] at length
    have byte : ∀ k < n.toNat, u.fetch b i (offset.toNat + k) = some (cs.getD k 0) := by
      intro k hk
      have at_k := congrArg (fun l => l.getD k none) fetched
      simpa [List.getD_eq_getElem?_getD, hk, length ▸ hk] using at_k
    refine ⟨fun k => if k < n.toNat then cs.getD k 0 else buffer k, fun k => ?_, ?_⟩
    · by_cases hk : k < n.toNat
      · rw [if_pos (by omega)]
        exact (byte k hk).trans (congrArg some (if_pos hk).symm)
      · rw [if_neg (by omega)]
        exact if_neg hk
    · apply List.ext_getElem
      · rw [List.length_map, List.length_range, length]
      · intro k left right
        have hk : k < n.toNat := length ▸ right
        rw [List.getElem_map, List.getElem_range, if_pos hk, List.getD_eq_getElem?_getD, List.getElem?_eq_getElem right,
        Option.getD_some]

/-- So do the reads of its pieces. -/
theorem deliversPieces_fetch {pieces : List (Int × (Nat → Byte))} (positive : ∀ p ∈ pieces, 0 < p.1)
    (size : offset + total pieces ≤ (u.inodes i).size.toInt) (blocks : offset + total pieces ≤ 122880)
    (cs : List Byte) :
    u.DeliversPieces b i offset pieces cs ↔
      (List.range' offset.toNat (total pieces).toNat).map (u.fetch b i) = cs.map some := by
  induction pieces generalizing offset cs with
  | nil =>
    have none : (List.range' offset.toNat (total []).toNat).map (u.fetch b i) = [] := rfl
    rw [none, eq_comm, List.map_eq_nil_iff]
    constructor
    · rintro ⟨outs, returned, -, rfl⟩
      cases returned
      rfl
    · rintro rfl
      exact ⟨[], rfl, fun _ inside => absurd inside List.not_mem_nil, rfl⟩
  | cons p pieces ih =>
    obtain ⟨n, buffer⟩ := p
    have first : 0 < n := positive _ List.mem_cons_self
    have others : ∀ q ∈ pieces, 0 < q.1 := fun q inside => positive q (List.mem_cons_of_mem _ inside)
    have rest := total_nonneg others
    have sum : total ((n, buffer) :: pieces) = n + total pieces := total_cons _ _
    rw [sum] at size blocks ⊢
    have next : (offset + n).toNat = offset.toNat + n.toNat := by omega
    have count : (n + total pieces).toNat = n.toNat + (total pieces).toNat := by omega
    have split : List.range' offset.toNat (n.toNat + (total pieces).toNat) =
        List.range' offset.toNat n.toNat ++ List.range' (offset.toNat + n.toNat) (total pieces).toNat := by
      rw [List.range'_append_1]
    rw [deliversPieces_cons, count, split, List.map_append, List.append_eq_map_iff]
    refine exists_congr fun front => exists_congr fun back => and_congr_right fun _ => ?_
    rw [delivers_fetch live regular low first (by omega) (by omega),
      ih (by omega) others (by omega) (by omega), next]
    exact and_congr eq_comm eq_comm

/-- Every byte of a range is delivered, or some byte of it is not on the disk. -/
theorem deliversPieces_iff {pieces : List (Int × (Nat → Byte))} (positive : ∀ p ∈ pieces, 0 < p.1)
    (size : offset + total pieces ≤ (u.inodes i).size.toInt) (blocks : offset + total pieces ≤ 122880) :
    (∃ cs, u.DeliversPieces b i offset pieces cs) ↔
      ∀ x : Nat, offset ≤ x → x < offset + total pieces → u.fetch b i x ≠ none := by
  have rest := total_nonneg positive
  simp only [deliversPieces_fetch live regular low positive size blocks]
  constructor
  · rintro ⟨cs, fetched⟩ x first last none
    have inside : u.fetch b i x ∈ (List.range' offset.toNat (total pieces).toNat).map (u.fetch b i) :=
      List.mem_map_of_mem (List.mem_range'_1.mpr (by omega))
    rw [fetched, none] at inside
    simp at inside
  · intro fetched
    refine ⟨(List.range' offset.toNat (total pieces).toNat).map fun x => (u.fetch b i x).getD 0, ?_⟩
    rw [List.map_map]
    refine List.map_congr_left fun x inside => ?_
    have range := List.mem_range'_1.mp inside
    obtain ⟨c, byte⟩ := Option.ne_none_iff_exists'.mp (fetched x (by omega) (by omega))
    simp [byte]

end Regular

section Print

variable {σ : Type} {u : Ufs} {i : Nat} {cs : List Byte} (live : u.allocated i) (regular : (u.inodes i).type = ufsRegularFile)
  (con : Console) (malloc : σ → Word → Except Fault σ) (s : σ)
include live regular

/-- The loop of print_file prints a file from its t-th byte on, and ends behind the last. -/
theorem printBytes_from (blocks : (u.inodes i).size.toInt ≤ 122880) (nonneg : 0 ≤ (u.inodes i).size.toInt) (left t : Nat)
    (le : t ≤ (u.inodes i).size.toInt) (enough : (u.inodes i).size.toInt < t + left)
    (fetched : (List.range' t ((u.inodes i).size.toInt.toNat - t)).map (u.fetch .kernel i) = cs.map some)
    (c : Nat → Byte) : printBytes con (u.services .kernel malloc) i left t c s = .ok (cs, s) := by
  induction left generalizing t cs c with
  | zero => omega
  | succ left ih =>
    unfold printBytes
    by_cases last : t = (u.inodes i).size.toInt
    · have unreadable : ¬ u.Readable i t 1 := by
        intro readable
        have size := readable.size
        rw [int32_eq (by omega) (by omega), Int.toNat_natCast] at size
        omega
      have none : (u.inodes i).size.toInt.toNat - t = 0 := by omega
      rw [none] at fetched
      cases List.map_eq_nil_iff.mp fetched.symm
      rw [services_ufsRead, ufsRead_unreadable unreadable]
      rfl
    · obtain ⟨count, more⟩ : ∃ count, (u.inodes i).size.toInt.toNat - t = count + 1 :=
        ⟨(u.inodes i).size.toInt.toNat - t - 1, by omega⟩
      rw [more, List.range'_succ, List.map_cons] at fetched
      obtain ⟨d, ds, rfl, first, rest⟩ := List.map_eq_cons_iff.mp fetched.symm
      have one : u.Delivers .kernel i t 1 c [d] := by
        rw [delivers_fetch live regular (Int.natCast_nonneg t) Int.one_pos (by omega) (by omega)]
        simp [← first]
      obtain ⟨out, returned, byte⟩ := one
      have char : out 0 = d := by simpa using byte
      have next : int32 ((t : Int) + 1) = ((t + 1 : Nat) : Int) := int32_eq (by omega) (by omega)
      have count_eq : (u.inodes i).size.toInt.toNat - (t + 1) = count := by omega
      have read : (u.services .kernel malloc).ufsRead s i c t 1 = .ok ((0, out), s) := by
        rw [services_ufsRead, returned]
        rfl
      simp only [read, once_ok_bind, ok_bind, ne_eq, not_true, if_false, char, says_char, next]
      rw [ih (t + 1) (by omega) (by omega) (by rw [count_eq]; exact rest.symm) out]
      rfl

end Print

/-- A read of a range of a regular file returns 0 and certain bytes exactly when the reads
of its pieces do, in whatever way it is cut, and this is when all its bytes are on the
disk; in files whose pointers are in the data region, when it has no hole. In particular
the loop of print_file prints what a read of the whole file delivers. -/
theorem reads_compose {σ : Type} {b : Build} {u : Ufs} {i : Nat} {offset : Int} {pieces : List (Int × (Nat → Byte))}
    (live : u.allocated i) (regular : (u.inodes i).type = ufsRegularFile) (low : 0 ≤ offset) (some : pieces ≠ [])
    (positive : ∀ p ∈ pieces, 0 < p.1) (size : offset + total pieces ≤ (u.inodes i).size.toInt)
    (blocks : offset + total pieces ≤ 122880) :
    (∀ buffer cs, u.Delivers b i offset (total pieces) buffer cs ↔ u.DeliversPieces b i offset pieces cs) ∧
    ((∃ cs, u.DeliversPieces b i offset pieces cs) ↔
      ∀ x : Nat, offset ≤ x → x < offset + total pieces → u.fetch b i x ≠ none) ∧
    (u.Sound b → u.Placed → (u.inodes i).mapped offset.toNat 0 (total pieces).toNat →
      ∃ cs, u.DeliversPieces b i offset pieces cs) ∧
    ((u.inodes i).size.toInt ≤ 122880 → ∀ buffer cs, u.Delivers .kernel i 0 (u.inodes i).size.toInt buffer cs →
      ∀ con malloc (left : Nat) c (s : σ), (u.inodes i).size.toInt < left →
        printBytes con (u.services .kernel malloc) i left 0 c s = .ok (cs, s)) := by
  have nonneg := total_nonneg positive
  have more : 0 < total pieces := by
    obtain ⟨p, rest, rfl⟩ := List.exists_cons_of_ne_nil some
    have first := positive p List.mem_cons_self
    have others := total_nonneg fun q inside => positive q (List.mem_cons_of_mem p inside)
    rw [total_cons]
    omega
  refine ⟨fun buffer cs => ?_, deliversPieces_iff live regular low positive size blocks, fun sound placed mapped => ?_,
    fun fits buffer cs delivers con malloc left c s enough => ?_⟩
  · rw [delivers_fetch live regular low more size blocks, deliversPieces_fetch live regular low positive size blocks]
  · refine (deliversPieces_iff live regular low positive size blocks).mpr fun x first last => ?_
    have range := mapped (x - offset.toNat) (Nat.zero_le _) (by omega) (by omega)
    have place : offset.toNat + (x - offset.toNat) = x := by omega
    rw [place] at range
    rw [fetch_held sound placed live range]
    exact Option.some_ne_none _
  · rw [delivers_fetch live regular (Int.le_refl 0) (by omega) (by omega) (by omega)] at delivers
    exact printBytes_from live regular con malloc s fits (by omega) left 0 (by omega) (by omega) delivers c

theorem reads_compose_small : ∃ u, Run (call .kernel) (fun _ _ => True) smallest
    [.creat 0 1 (letter 97 (by decide)) zeros, .write 1 (fun k => BitVec.ofNat 8 k) 0 3] u ∧
    ∀ cs, u.Delivers .kernel 1 0 3 zeros.dent cs ↔
      u.DeliversPieces .kernel 1 0 [(1, zeros.dent), (2, zeros.dent)] cs := by
  obtain ⟨u, run, check⟩ := run_of_check (call .kernel) (fun _ _ => True) (fun _ _ => true) smallest
    [.creat 0 1 (letter 97 (by decide)) zeros, .write 1 (fun k => BitVec.ofNat 8 k) 0 3]
    (fun u => decide (u.allocated 1) && decide ((u.inodes 1).type = ufsRegularFile) && decide ((u.inodes 1).size = 3))
    (fun _ _ _ => trivial) (by decide +kernel)
  simp only [Bool.and_eq_true, decide_eq_true_eq] at check
  obtain ⟨⟨live, regular⟩, size⟩ := check
  have positive : ∀ p ∈ [((1 : Int), zeros.dent), (2, zeros.dent)], 0 < p.1 := by
    intro p inside
    rcases List.mem_cons.mp inside with rfl | inside
    · decide
    · cases List.mem_singleton.mp inside
      decide
  have three : (u.inodes 1).size.toInt = 3 := by
    rw [size]
    decide
  have sum : total [((1 : Int), zeros.dent), (2, zeros.dent)] = 3 := rfl
  have composed := reads_compose (σ := Unit) (b := .kernel) live regular (Int.le_refl 0) (List.cons_ne_nil _ _) positive
    (by rw [sum, three]; decide) (by rw [sum]; decide)
  exact ⟨u, run, composed.1 zeros.dent⟩

/- A file of one byte whose pointers are far past the end of the disk. -/
def stray : Ufs :=
  { smallest with
    inodeBp := setBitmap smallest.inodeBp 1
    inodes := Function.update smallest.inodes 1 ⟨ufsRegularFile, 1, fun _ => 0x7FFFF⟩ }

/-- Its one byte has a pointer and is below its size, and no read delivers it. -/
theorem read_off_disk : stray.allocated 1 ∧ (stray.inodes 1).type = ufsRegularFile ∧
    (∀ a < 30, (stray.inodes 1).ptr a ≠ -1) ∧ (0 : Int) + 1 ≤ min (stray.inodes 1).size.toInt 122880 ∧
    ∀ buffer cs, ¬ stray.Delivers .host 1 0 1 buffer cs := by
  have live : stray.allocated 1 := by decide +kernel
  have gone : stray.fetch .host 1 0 = none := by decide +kernel
  refine ⟨live, rfl, ?_, by decide, fun buffer cs delivers => ?_⟩
  · intro a inside
    rw [Inode.ptr, dif_pos inside]
    show (0x7FFFF : Word) ≠ -1
    decide
  · have fetched := (delivers_fetch live rfl (Int.le_refl 0) Int.one_pos (by decide) (by decide) buffer cs).mp delivers
    obtain ⟨c, -, -, byte, -⟩ := List.map_eq_cons_iff.mp fetched.symm
    rw [Int.toNat_zero, gone] at byte
    cases byte

end Icix
