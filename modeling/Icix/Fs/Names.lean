import Icix.Fs.Tree

/-! The names that the kernel's ufs_creat stores. Its strcpy copies five bytes, so of a
longer name only the beginning reaches the entry. -/
namespace Icix
open Bytes Ownership

section Kernel

variable {u w : Ufs} {p : Nat} {es : Entries} {type : Word} {name : CString} {stk : Stack}

/-- After a creation the entry holds all of the name, and lookups find it and what they
found before, exactly when the name's bytes from the sixth on, with the NUL, already
lay where the entry was made. -/
theorem creat_stores_name (sound : u.Sound .kernel) (owned : u.Owned) (live : u.allocated p)
    (dir : (u.inodes p).type = ufsDirectory) (dense : u.Dense p es) (short : name.chars.length ≤ 27)
    (returned : ufsCreat .kernel u p type name stk = .ok (.committed, w)) :
    ∃ inum, emptyPosInode u = some inum ∧
      ((Holds (w.entry p es.length) name.chars ∧ ufsLookup .kernel w p name = .ok inum ∧
          ∀ other : CString, other.chars ≠ name.chars →
            ufsLookup .kernel w p other = ufsLookup .kernel u p other) ↔
        ∀ k, 5 ≤ k → k ≤ name.chars.length → entryJunk stk es.length k = name.mem k) := by
  have placed := owned.placed
  have lookupU := fun name => ufsLookup_dense name sound placed live dense dir
  rcases ufsCreat_cases sound placed returned with ⟨failed, _⟩ | ⟨inum, creatable, created⟩
  · cases failed
  · rw [Int.toNat_natCast] at created
    obtain ⟨hi, clear⟩ := emptyPosInode_some creatable.found
    obtain ⟨fits, room, ⟨m, made, ext⟩, _⟩ := created.extends sound owned live hi clear dense.packed
    obtain ⟨step, _⟩ := created.settled sound placed live hi clear
    refine ⟨inum, creatable.found, fun ⟨stored, _⟩ k past inside => ?_, fun rest => ?_⟩
    · have copy := made.copy k (by omega)
      rw [if_neg (show ¬ k < copied .kernel name from Nat.not_lt_of_le past)] at copy
      rw [← copy, ← ext.new k (by omega)]
      exact holds_same stored name.holds inside
    · have small : inum < 2147483648 := Nat.lt_trans hi u.s.ni_lt
      have entry := made.entry short small (fun k inside past => rest k past inside)
      have denseW := ext.dense live dense room entry
      have lookupW := fun name => ufsLookup_dense name (step.sound sound) (step.placed placed)
        (ext.keeps.allocated p live) denseW ((created.parent_type live clear).trans dir)
      have absent : es.lookup name.chars = none := by
        have missing := creatable.absent
        rw [lookupU] at missing
        cases found : es.lookup name.chars with
        | none => rfl
        | some i =>
          rw [found] at missing
          exact absurd (Except.ok.inj missing) (by omega)
      refine ⟨(entry.congr (fun k hk => (ext.new k hk).symm)).holds, ?_, fun other differs => ?_⟩
      · rw [lookupW, List.lookup_append, absent, List.lookup_cons, beq_self_eq_true]
        rfl
      · have skip : (other.chars == name.chars) = false := by simpa using differs
        rw [lookupW, lookupU, List.lookup_append, List.lookup_cons, skip, List.lookup_nil, Option.or_none]

end Kernel

theorem creat_stores_name_letter : ∃ w, ufsCreat .kernel smallest (0 : Nat) 1 (letter 97 (by decide)) zeros =
    .ok (.committed, w) ∧ ufsLookup .kernel w (0 : Nat) (letter 97 (by decide)) = .ok 1 := by
  have fresh := smallest_fresh .kernel
  have check : (ufsCreat .kernel smallest (0 : Nat) 1 (letter 97 (by decide)) zeros).map Prod.fst =
    .ok .committed := by decide +kernel
  have free : emptyPosInode smallest = some 1 := by decide +kernel
  obtain ⟨⟨r, w⟩, returned, rfl⟩ := Runs.map_ok.mp check
  obtain ⟨inum, found, stores⟩ := creat_stores_name fresh.sound fresh.owned ((fresh.allocated 0).mpr rfl)
    (by rw [fresh.root]; rfl) fresh.dense (by decide) returned
  cases Option.some.inj (free.symm.trans found)
  refine ⟨w, returned, (stores.mpr (fun k past inside => ?_)).2.1⟩
  have length : (letter 97 (by decide)).chars.length = 1 := rfl
  omega

def fiveLetters : CString where
  mem k := if k < 5 then BitVec.ofNat 8 (97 + k) else 0
  chars := [97, 98, 99, 100, 101]
  holds := by decide

/-- Where the stack is full of the letter x, a file created as abcde in a new file
system gets an entry whose name does not end, and is not found. -/
theorem creat_truncates_name : ∃ w, mkfs 32 32 ⟨fun _ => 0, zeros⟩ = .ok smallestDisk ∧
    ufsInit .kernel smallestDisk 0 (fun _ => 0) (fun _ => 0) = .ok smallest ∧
    ufsLookup .kernel smallest (0 : Nat) fiveLetters = .ok (-1) ∧
    ufsCreat .kernel smallest (0 : Nat) 1 fiveLetters ⟨fun _ => 120, fun _ => 120, fun _ => 120, fun _ => 0⟩ =
      .ok (.committed, w) ∧ emptyPosInode smallest = some 1 ∧
    ¬ Holds (w.entry 0 2) fiveLetters.chars ∧ ufsLookup .kernel w (0 : Nat) fiveLetters = .ok (-1) := by
  have check : (ufsCreat .kernel smallest (0 : Nat) 1 fiveLetters
      ⟨fun _ => 120, fun _ => 120, fun _ => 120, fun _ => 0⟩).map (fun out =>
        (out.1, decide (Holds (out.2.entry 0 2) fiveLetters.chars), ufsLookup .kernel out.2 (0 : Nat) fiveLetters)) =
      .ok (.committed, false, .ok (-1)) := by decide +kernel
  obtain ⟨⟨r, w⟩, returned, same⟩ := Runs.map_ok.mp check
  simp only [Prod.mk.injEq, decide_eq_false_iff_not] at same
  obtain ⟨rfl, lost, lookup⟩ := same
  exact ⟨w, smallest_formatted, smallest_mounted .kernel, by decide +kernel, returned, by decide +kernel, lost, lookup⟩

end Icix
