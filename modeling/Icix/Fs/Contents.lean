import Icix.Fs.Print
import Icix.Fs.Pieces

/-! That the loops of print_file and print_fs_contents end, and where descents do. -/
namespace Icix
open Bytes Runs Fuel

/- The offset of the next turn, which is negative past the largest int. -/
theorem int32_next {offset n : Int} (low : 0 ≤ offset) (high : offset < 2147483648) (nonneg : 0 ≤ n)
    (small : n ≤ 2147483648) :
    int32 (offset + n) < 0 ∨ int32 (offset + n) = offset + n ∧ offset + n < 2147483648 := by
  by_cases inside : offset + n < 2147483648
  · exact .inr ⟨int32_eq (by omega) inside, inside⟩
  · left
    unfold int32
    rw [Int.bmod_def]
    split <;> omega

/-- A read before the start of a file finds nothing. -/
theorem ufsRead_before {b : Build} {u : Ufs} {inum offset n : Int} (before : offset < 0) (buffer : Nat → Byte) :
    ufsRead b u inum buffer offset n = .ok (-1, buffer) := by
  refine ufsRead_unreadable (fun readable => ?_)
  have nonneg := readable.offset_nonneg
  omega

section Loops

variable {σ : Type} (con : Console) (u : Ufs) (malloc : σ → Word → Except Fault σ) (inum : Int)

omit u malloc inum in
theorem Console.say_ends (mem : Nat → Byte) (format : String) (args : List Word) :
    Ends (fun _ => con.say mem format args) := ends_once _

/-- The loop of print_file ends: its offset grows, and stops at the largest int. -/
theorem printBytes_ends {offset : Int} (high : offset < 2147483648) (c : Nat → Byte) (s : σ) :
    Ends (fun fuel => printBytes con (u.services .kernel malloc) inum fuel offset c s) := by
  induction left : (2147483648 - offset).toNat using Nat.strong_induction_on generalizing offset c s with
  | _ left ih =>
    refine Ends.later ?_
    simp only [printBytes, services_ufsRead]
    refine ends_once_bind (fun v returned => ?_)
    obtain ⟨out, read, rfl⟩ := map_ok.mp returned
    by_cases stop : out.1 ≠ 0
    · simpa only [if_pos stop] using ends_ok ([], s)
    · simp only [if_neg stop]
      refine (con.say_ends _ _ _).bind (fun said _ => Ends.bind ?_ (fun rest _ => ends_ok (said ++ rest.1, rest.2)))
      have low : 0 ≤ offset := by
        by_contra before
        rw [ufsRead_before (by omega)] at read
        exact stop (Except.ok.inj read ▸ (by decide : (-1 : Int) ≠ 0))
      rcases int32_next low high (n := 1) (by decide) (by decide) with wrapped | ⟨next, inside⟩
      · refine Ends.later ?_
        simp only [printBytes, services_ufsRead, ufsRead_before wrapped]
        exact ends_ok ([], s)
      · rw [next]
        exact ih _ (by omega) inside out.2 s rfl

theorem printFile_ends (s : σ) : Ends (fun fuel => printFile con (u.services .kernel malloc) fuel inum s) := by
  simp only [printFile]
  refine (con.say_ends _ _ _).bind (fun line _ => (con.say_ends _ _ _).bind (fun title _ => ends_once_bind ?_))
  intro s' _
  refine (printBytes_ends con u malloc inum (by decide) con.junk s').bind (fun contents _ => ?_)
  exact (con.say_ends _ _ _).bind (fun last _ => ends_ok _)

omit u malloc inum in
theorem printEntry_ends (et : Nat → Byte) {directory file : Nat → σ → Timed Fault (List Byte × σ)} (s : σ)
    (inner : et 0 = Libc.ch 'd' → Ends (fun fuel => directory fuel s)) (ends : Ends (fun fuel => file fuel s)) :
    Ends (fun fuel => printEntry con et (directory fuel) (file fuel) s) := by
  unfold printEntry
  by_cases name : et 0 = Libc.ch 'd'
  · simpa only [if_pos name] using inner name
  · simp only [if_neg name]
    refine ends_once_bind (fun other _ => ?_)
    cases other
    · exact ends_ok ([], s)
    · exact ends

/-- The first loop ends, as its offset does the same. -/
theorem listEntries_ends {offset : Int} (high : offset < 2147483648) (et : Nat → Byte) (s : σ) :
    Ends (fun fuel => listEntries con (u.services .kernel malloc) inum fuel offset et s) := by
  induction left : (2147483648 - offset).toNat using Nat.strong_induction_on generalizing offset et s with
  | _ left ih =>
    refine Ends.later ?_
    simp only [listEntries, services_ufsRead]
    refine ends_once_bind (fun v returned => ?_)
    obtain ⟨out, read, rfl⟩ := map_ok.mp returned
    by_cases stop : out.1 ≠ 0 ∨ entInum out.2 = -1
    · simpa only [if_pos stop] using ends_ok (([], out.2), s)
    · simp only [if_neg stop]
      refine (con.say_ends _ _ _).bind (fun said _ =>
        Ends.bind ?_ (fun rest _ => ends_ok ((said ++ rest.1.1, rest.1.2), rest.2)))
      have low : 0 ≤ offset := by
        by_contra before
        rw [ufsRead_before (by omega)] at read
        exact stop (.inl (Except.ok.inj read ▸ (by decide : (-1 : Int) ≠ 0)))
      rcases int32_next low high (n := 32) (by decide) (by decide) with wrapped | ⟨next, inside⟩
      · refine Ends.later ?_
        simp only [listEntries, services_ufsRead, ufsRead_before wrapped]
        exact ends_ok (([], out.2), s)
      · rw [next]
        exact ih _ (by omega) inside out.2 s rfl

end Loops

/-- Read as a directory, file p has a used entry for q whose name starts with a 'd', after
used ones only. -/
def Ufs.Leads (u : Ufs) (p q : Nat) : Prop :=
  u.allocated p ∧ ∃ t : Nat, ((32 * (t + 1) : Nat) : Int) ≤ (u.inodes p).size.toInt ∧
    (∀ s ≤ t, (u.inodes p).ptr (s / 128) ≠ -1 ∧ entInum (u.entry p s) ≠ -1) ∧
    u.entry p t 0 = Libc.ch 'd' ∧ (entInum (u.entry p t)).toInt = q

/-- Before turn t of a loop over the entries all before it are used, and where the pointers
of an inode have ended the last one of theirs is still in the buffer. -/
structure Ufs.Turn (u : Ufs) (p t : Nat) (et : Nat → Byte) : Prop where
  size : ∀ s < t, s < 3840 → ((32 * (s + 1) : Nat) : Int) ≤ (u.inodes p).size.toInt
  used : ∀ s < t, s < 3840 → (u.inodes p).ptr (s / 128) ≠ -1 ∧ entInum (u.entry p s) ≠ -1
  last : 3840 ≤ t → ∀ k < 32, et k = u.entry p 3839 k

theorem Ufs.Turn.first (u : Ufs) (p : Nat) (et : Nat → Byte) : u.Turn p 0 et :=
  ⟨fun _ early => absurd early (Nat.not_lt_zero _), fun _ early => absurd early (Nat.not_lt_zero _),
    fun late => absurd late (by decide)⟩

section Turns

variable {u : Ufs} (sound : u.Sound .kernel) (placed : u.Placed) {p t : Nat} {et : Nat → Byte}
include sound placed

/-- A turn that finds a used entry leads where that entry says. -/
theorem Ufs.Turn.next (turn : u.Turn p t et) (early : t < 67108864) {out : Nat → Byte}
    (read : ufsRead .kernel u p et ((32 * t : Nat) : Int) 32 = .ok (0, out)) (used : entInum out ≠ -1) :
    u.Turn p (t + 1) out ∧
      ∀ q : Nat, out 0 = Libc.ch 'd' → (entInum out).toInt = q → u.Leads p q := by
  obtain ⟨readable, mapped, filled⟩ := ufsRead_zero sound placed read
  have live := readable.allocated
  simp only [Int.toNat_natCast] at live mapped filled
  by_cases inside : t < 3840
  · have size := readable.size
    rw [int32_eq (by omega) (by omega), Int.toNat_natCast] at size
    have bytes : ∀ k < 32, out k = u.entry p t k := by
      intro k hk
      have range : 0 ≤ k ∧ k < (32 : Int).toNat ∧ 32 * t + k < 122880 := ⟨Nat.zero_le k, hk, by omega⟩
      rw [filled]
      exact if_pos range
    have real : (u.inodes p).ptr (t / 128) ≠ -1 := by
      have block : (32 * t + 0) / 4096 = t / 128 := by omega
      exact block ▸ mapped 0 (Nat.le_refl 0) (by decide) (by omega)
    have inum := entInum_congr bytes
    have upto : ∀ s ≤ t, (u.inodes p).ptr (s / 128) ≠ -1 ∧ entInum (u.entry p s) ≠ -1 := by
      intro s le
      rcases Nat.lt_or_eq_of_le le with before | rfl
      · exact turn.used s before (by omega)
      · exact ⟨real, inum ▸ used⟩
    refine ⟨⟨fun s before low => ?_, fun s before _ => upto s (by omega), fun late k hk => ?_⟩, fun q name target => ?_⟩
    · rcases Nat.lt_or_eq_of_le (Nat.le_of_lt_succ before) with old | rfl
      · exact turn.size s old low
      · omega
    · have last : t = 3839 := by omega
      rw [bytes k hk, last]
    · exact ⟨live, t, by omega, upto, by rw [← bytes 0 (by decide), name], by rw [← inum, target]⟩
  · have same : out = et := by
      rw [filled]
      funext k
      exact if_neg (fun range => absurd range.2.2 (by omega))
    rw [same] at used ⊢
    have bytes := turn.last (by omega)
    refine ⟨⟨fun s before low => turn.size s (by omega) low, fun s before low => turn.used s (by omega) low,
      fun _ => bytes⟩, fun q name target => ?_⟩
    have upto : ∀ s ≤ 3839, (u.inodes p).ptr (s / 128) ≠ -1 ∧ entInum (u.entry p s) ≠ -1 :=
      fun s le => turn.used s (by omega) (by omega)
    exact ⟨live, 3839, turn.size 3839 (by omega) (by decide), upto, by rw [← bytes 0 (by decide), name],
      by rw [← entInum_congr bytes, target]⟩

omit sound placed in
theorem int32_offset (early : t < 67108864) : int32 ((32 * t : Nat) : Int) = ((32 * t : Nat) : Int) :=
  int32_eq (by omega) (by omega)

section Kernel

variable {σ : Type} (con : Console) (malloc : σ → Word → Except Fault σ)

omit sound placed in
/-- A call for a negative inode number finds no entry. -/
theorem printFsContents_negative {inum : Int} (negative : inum < 0) (s : σ) :
    Ends (fun fuel => printFsContents con (u.services .kernel malloc) fuel inum s) := by
  have nothing : ∀ et offset, ufsRead .kernel u inum et offset 32 = .ok (-1, et) := by
    refine fun et offset => ufsRead_unreadable (fun readable => ?_)
    have low := readable.low
    omega
  refine Ends.later ?_
  simp only [printFsContents]
  refine (con.say_ends _ _ _).bind (fun line _ => (con.say_ends _ _ _).bind (fun title _ => ?_))
  refine (listEntries_ends con u malloc inum (by decide) con.junk s).bind (fun listed _ => ?_)
  refine (con.say_ends _ _ _).bind (fun last _ => Ends.bind (Ends.later ?_) (fun inner _ => ends_ok _))
  simp only [printEntries, services_ufsRead, nothing]
  exact ends_ok ([], listed.2)

/-- The second loop ends, if the calls do for the entries that it takes for directories. -/
theorem printEntries_ends
    (inner : ∀ q : Nat, u.Leads p q → ∀ s, Ends (fun fuel => printFsContents con (u.services .kernel malloc) fuel q s))
    (le : t ≤ 67108864) (turn : u.Turn p t et) (s : σ) :
    Ends (fun fuel => printEntries con (u.services .kernel malloc) fuel p (int32 ((32 * t : Nat) : Int)) et s) := by
  induction left : 67108864 - t generalizing t et s with
  | zero =>
    have last : t = 67108864 := by omega
    have wrapped : int32 ((32 * t : Nat) : Int) < 0 := last ▸ (by decide)
    refine Ends.later ?_
    simp only [printEntries, services_ufsRead, ufsRead_before wrapped]
    exact ends_ok ([], s)
  | succ left ih =>
    have early : t < 67108864 := by omega
    rw [int32_offset early]
    refine Ends.later ?_
    simp only [printEntries, services_ufsRead]
    refine ends_once_bind (fun v returned => ?_)
    obtain ⟨⟨r, out⟩, read, rfl⟩ := map_ok.mp returned
    by_cases stop : r ≠ 0 ∨ entInum out = -1
    · simpa only [if_pos stop] using ends_ok ([], s)
    · simp only [if_neg stop]
      push Not at stop
      obtain ⟨rfl, used⟩ := stop
      obtain ⟨later, leads⟩ := turn.next sound placed early read used
      refine (printEntry_ends con out s (fun name => ?_) (printFile_ends con u malloc _ s)).bind
        (fun printed _ => (ih (by omega) later printed.2 (by omega)).bind (fun rest _ => ends_ok _))
      by_cases negative : (entInum out).toInt < 0
      · exact printFsContents_negative con malloc negative s
      · obtain ⟨q, target⟩ := Int.eq_ofNat_of_zero_le (Int.not_lt.mp negative)
        rw [target]
        exact inner q (leads q name target) s

/-- Where every path of descents ends print_fs_contents does. -/
theorem printFsContents_ends (paths : Acc (fun q p => u.Leads p q) p) (s : σ) :
    Ends (fun fuel => printFsContents con (u.services .kernel malloc) fuel p s) := by
  induction paths generalizing s with
  | intro p _ ih =>
    refine Ends.later ?_
    simp only [printFsContents]
    refine (con.say_ends _ _ _).bind (fun line _ => (con.say_ends _ _ _).bind (fun title _ => ?_))
    refine (listEntries_ends con u malloc p (by decide) con.junk s).bind (fun listed _ => ?_)
    refine (con.say_ends _ _ _).bind (fun last _ => Ends.bind ?_ (fun inner _ => ends_ok _))
    have start : int32 ((32 * 0 : Nat) : Int) = 0 := by decide
    exact start ▸ printEntries_ends sound placed con malloc ih (Nat.zero_le 67108864) (.first u p listed.1.2) listed.2

variable {malloc}

/-- A second loop that has returned has called print_fs_contents for each entry that it takes
for a directory, and that call has returned. -/
theorem printEntries_calls {q fuel i : Nat} {s : σ} {out : List Byte × σ} (le : i ≤ t) (live : u.allocated p)
    (size : ((32 * (t + 1) : Nat) : Int) ≤ (u.inodes p).size.toInt)
    (used : ∀ i ≤ t, (u.inodes p).ptr (i / 128) ≠ -1 ∧ entInum (u.entry p i) ≠ -1)
    (name : u.entry p t 0 = Libc.ch 'd') (target : (entInum (u.entry p t)).toInt = q)
    (returned : printEntries con (u.services .kernel malloc) fuel p ((32 * i : Nat) : Int) et s = .ok out) :
    ∃ less < fuel, ∃ s inner, printFsContents con (u.services .kernel malloc) less q s = .ok inner := by
  induction fuel generalizing i et s out with
  | zero => cases returned
  | succ fuel ih =>
    obtain ⟨m, read, bytes⟩ := ufsRead_turn sound placed live (by omega) (used i le).1 et
    have inum := entInum_congr bytes
    have more : ¬ ((0 : Int) ≠ 0 ∨ entInum m = -1) := by
      rintro (nonzero | unused)
      · exact nonzero rfl
      · exact (used i le).2 (inum ▸ unused)
    simp only [printEntries, services_ufsRead, read, Except.map, once_ok_bind, if_neg more] at returned
    obtain ⟨printed, entry, returned⟩ := bind_ok.mp returned
    obtain ⟨rest, later, _⟩ := bind_ok.mp returned
    rcases Nat.lt_or_eq_of_le le with before | rfl
    · have within := Inode.ptr_lt (used t (Nat.le_refl t)).1
      have offset : int32 (((32 * i : Nat) : Int) + 32) = ((32 * (i + 1) : Nat) : Int) :=
        int32_offset (t := i + 1) (by omega)
      rw [offset] at later
      obtain ⟨less, lt, found⟩ := ih before later
      exact ⟨less, Nat.lt_succ_of_lt lt, found⟩
    · have first : m 0 = Libc.ch 'd' := (bytes 0 (by decide)).trans name
      rw [printEntry, if_pos first, inum, target] at entry
      exact ⟨fuel, Nat.lt_succ_self fuel, s, printed, entry⟩

/-- Where print_fs_contents returns every path of descents ends. -/
theorem acc_of_returns {fuel : Nat} {s : σ} {out : List Byte × σ}
    (returned : printFsContents con (u.services .kernel malloc) fuel p s = .ok out) :
    Acc (fun q p => u.Leads p q) p := by
  induction fuel using Nat.strong_induction_on generalizing p s out with
  | _ fuel ih =>
    refine .intro p (fun q leads => ?_)
    obtain ⟨live, t, size, used, name, target⟩ := leads
    cases fuel with
    | zero => cases returned
    | succ fuel =>
      simp only [printFsContents] at returned
      obtain ⟨_, _, returned⟩ := bind_ok.mp returned
      obtain ⟨_, _, returned⟩ := bind_ok.mp returned
      obtain ⟨listed, _, returned⟩ := bind_ok.mp returned
      obtain ⟨_, _, returned⟩ := bind_ok.mp returned
      obtain ⟨inner, entries, _⟩ := bind_ok.mp returned
      obtain ⟨less, lt, _, found, call⟩ :=
        printEntries_calls (i := 0) sound placed con (Nat.zero_le t) live size used name target entries
      exact ih less (Nat.lt_succ_of_lt lt) call

end Kernel

end Turns

end Icix
