import Icix.Fs.Hierarchy
import Icix.Fs.Print

/-! The two ways of reading a directory, ufs_lookup by name and the loop of
print_fs_contents in kernel.c, against a log of the creations of a run. -/
namespace Icix
open Bytes Ownership Trees Runs Fuel

section Dense

variable {b : Build} {u : Ufs} {p : Nat} {es : Entries} (sound : u.Sound b) (placed : u.Placed)
  (live : u.allocated p) (dense : u.Dense p es)
include sound placed live dense

theorem ufsRead_entry {t : Nat} (inside : t < es.length) (et : Nat → Byte) :
    ∃ out, ufsRead b u p et ((32 * t : Nat) : Int) 32 = .ok (0, out) ∧ IsEntry out es[t] := by
  have le := dense.length_le
  have size : (u.inodes p).size.toInt = ((32 * es.length : Nat) : Int) := by
    rw [dense.size, BitVec.toInt_ofNat']
    exact int32_eq (by omega) (by omega)
  have block : (32 * t + 0) / 4096 = t / 128 := by omega
  obtain ⟨out, read, bytes⟩ :=
    ufsRead_turn sound placed live (by omega) (block ▸ dense.packed.real (by omega) (by decide : 0 < 32)) et
  exact ⟨out, read, (dense.entries t inside).congr (fun k hk => (bytes k hk).symm)⟩

omit sound placed live in
theorem ufsRead_end (et : Nat → Byte) :
    ufsRead b u p et ((32 * es.length : Nat) : Int) 32 = .ok (-1, et) := by
  have le := dense.length_le
  refine ufsRead_unreadable (fun readable => ?_)
  have size := readable.size
  rw [int32_eq (by omega) (by omega), Int.toNat_natCast, dense.size, BitVec.toInt_ofNat'] at size
  have value : (((32 * es.length : Nat) : Int)).bmod (2 ^ 32) = ((32 * es.length : Nat) : Int) :=
    int32_eq (by omega) (by omega)
  omega

/-- The first loop of print_fs_contents prints the entries in their order and ends after the last one. -/
theorem listEntries_dense {σ : Type} (con : Console) (malloc : σ → Word → Except Fault σ) (s : σ) (left t : Nat)
    (le : t ≤ es.length) (enough : es.length < t + left) (et : Nat → Byte) :
    ∃ last, listEntries con (u.services b malloc) p left ((32 * t : Nat) : Int) et s =
      .ok (((es.drop t).flatMap entryText, last), s) := by
  have small := dense.length_le
  induction left generalizing t et with
  | zero => omega
  | succ left ih =>
    unfold listEntries
    by_cases last : t = es.length
    · refine ⟨et, ?_⟩
      have ended : (-1 : Int) ≠ 0 ∨ entInum et = -1 := .inl (by decide)
      rw [last, services_ufsRead, ufsRead_end dense et, Except.map]
      simp only [once_ok_bind, if_pos ended, List.drop_length, List.flatMap_nil]
    · have inside : t < es.length := by omega
      obtain ⟨out, read, entry⟩ := ufsRead_entry sound placed live dense inside et
      obtain ⟨last, rest⟩ := ih (t + 1) (by omega) (by omega) out
      have next : int32 (((32 * t : Nat) : Int) + 32) = ((32 * (t + 1) : Nat) : Int) := int32_eq (by omega) (by omega)
      have more : ¬ ((0 : Int) ≠ 0 ∨ entInum out = -1) := fun stop => stop.elim (fun h => h rfl) entry.used.1
      refine ⟨last, ?_⟩
      rw [services_ufsRead, read, Except.map]
      simp only [once_ok_bind, if_neg more, says_entry con entry, ok_bind, next, rest, List.drop_eq_getElem_cons inside,
        List.flatMap_cons]

end Dense

/-- A call, with a log of the links that creations have made. -/
def logCall (b : Build) (s : Ufs × List (Link (List Byte) Nat)) (c : Call) :
    Except Fault (Ufs × List (Link (List Byte) Nat)) :=
  (call b s.1 c).map fun v => (v, s.2 ++ added b s.1 c)

/-- The bindings of directory p with parent q, after the creations of a log. -/
def listing (log : List (Link (List Byte) Nat)) (p q : Nat) : Entries :=
  ([46], p) :: ([46, 46], q) :: (log.filter fun l => l.dir = p).map fun l => (l.name, l.node)

/-- After any run without ufs_unlink, ufs_lookup in a directory that the root leads to
returns the directory for ".", its parent for "..", the inode of the one creation of
that name, and -1 for every other name; and the loop of print_fs_contents lists
these bindings in the order of their creation. -/
theorem lookup_and_listing {σ : Type} {numInodes numData : Int} {stk : MkfsStack} {d : Disk}
    {dirtyInodeBp dirtyDataBp : Bitmap} {u₀ u : Ufs} {log : List (Link (List Byte) Nat)} {calls : List Call}
    (small : 4096 * imageBlocks numInodes.toNat numData.toNat < 2147483648)
    (formatted : mkfs numInodes numData stk = .ok d)
    (mounted : ufsInit .host d 0 dirtyInodeBp dirtyDataBp = .ok u₀)
    (run : Run (logCall .host) (fun s => Removeless s.1) (u₀, []) calls (u, log)) {p : Nat}
    (reach : u.Reachable p) :
    ∃ q, u.Parent q p ∧ ((listing log p q).map Prod.fst).Nodup ∧
      (∀ name : CString, (name.chars = [46] → ufsLookup .host u p name = .ok p) ∧
        (name.chars = [46, 46] → ufsLookup .host u p name = .ok q) ∧
        (∀ l ∈ log, l.dir = p → l.name = name.chars → ufsLookup .host u p name = .ok l.node) ∧
        (name.chars ≠ [46] → name.chars ≠ [46, 46] → (∀ l ∈ log, l.dir = p → l.name ≠ name.chars) →
          ufsLookup .host u p name = .ok (-1))) ∧
      (∀ (t : Nat) (h : t < (listing log p q).length) et, ∃ out,
        ufsRead .host u p et ((32 * t : Nat) : Int) 32 = .ok (0, out) ∧ IsEntry out (listing log p q)[t]) ∧
      (∀ et, ufsRead .host u p et ((32 * (listing log p q).length : Nat) : Int) 32 = .ok (-1, et)) ∧
      ∀ con malloc left et (s : σ), (listing log p q).length < left → ∃ last,
        listEntries con (u.services .host malloc) p left 0 et s = .ok (((listing log p q).flatMap entryText, last), s) := by
  have fresh := fresh_of_mount small formatted mounted
  obtain ⟨t, links, sound, owned, rep⟩ := run.invariant (fun s => ∃ t : Dirs, t.links = s.2 ∧ s.1.Tidy .host t)
    (fun s c s' ⟨t, links, tidy⟩ keep returned => by
      unfold logCall at returned
      cases result : call .host s.1 c with
      | error f =>
        rw [result] at returned
        cases returned
      | ok v =>
        rw [result] at returned
        cases Except.ok.inj returned
        obtain ⟨t', links', tidy', _⟩ := tidy.grows keep result
        exact ⟨t', links ▸ links', tidy'⟩)
    ⟨_, rfl, fresh.tidy⟩
  obtain ⟨rooted, dir⟩ := rep.reachable_iff.mp reach
  obtain ⟨q, above, rootedQ, entries, dense⟩ := rep.rooted_dense rooted dir
  have same : Dirs.entries t p = listing log p q := by rw [entries, listing, Tree.children, links]
  have names := rep.names p
  rw [same] at dense names
  have placed := owned.placed
  have live := rep.rooted_live rooted
  have lookup := fun name => ufsLookup_dense name sound placed live dense dir
  have found : ∀ name : CString, ∀ inum, (name.chars, inum) ∈ listing log p q →
      ufsLookup .host u p name = .ok inum := by
    intro name inum mem
    rw [lookup, lookup_of_mem names mem]
  refine ⟨q, rep.parent above rootedQ, names, fun name => ⟨fun self => ?_, fun up => ?_, ?_, ?_⟩,
    fun k h et => ufsRead_entry sound placed live dense h et, ufsRead_end dense, fun con malloc left et s enough => ?_⟩
  · exact found name p (self ▸ List.mem_cons_self ..)
  · exact found name q (up ▸ List.mem_cons_of_mem _ (List.mem_cons_self ..))
  · intro l mem dirL nameL
    refine found name l.node (List.mem_cons_of_mem _ (List.mem_cons_of_mem _ ?_))
    refine List.mem_map.mpr ⟨l, List.mem_filter.mpr ⟨mem, by simpa using dirL⟩, by rw [nameL]⟩
  · intro self up others
    have none : (listing log p q).lookup name.chars = none := by
      refine List.lookup_eq_none_iff.mpr (fun e mem => ?_)
      rcases List.mem_cons.mp mem with rfl | mem
      · simpa using self
      · rcases List.mem_cons.mp mem with rfl | mem
        · simpa using up
        · obtain ⟨l, made, rfl⟩ := List.mem_map.mp mem
          have here := List.mem_filter.mp made
          simpa using Ne.symm (others l here.1 (by simpa using here.2))
    rw [lookup, none]
  · exact listEntries_dense sound placed live dense con malloc s left 0 (Nat.zero_le _) (by omega) et

theorem lookup_and_listing_smallest : ∃ u log, Run (logCall .host) (fun s => Removeless s.1) (smallest, [])
    [.creat 0 0 (letter 97 (by decide)) zeros, .creat 0 1 (letter 98 (by decide)) zeros,
      .creat 0 1 (letter 97 (by decide)) zeros] (u, log) ∧
    ufsLookup .host u 0 (letter 98 (by decide)) = .ok 2 ∧
    ufsLookup .host u 0 (letter 99 (by decide)) = .ok (-1) := by
  obtain ⟨⟨u, log⟩, run, check⟩ := run_of_check (logCall .host) (fun s => Removeless s.1)
    (fun _ c => !c.removes) (smallest, [])
    [.creat 0 0 (letter 97 (by decide)) zeros, .creat 0 1 (letter 98 (by decide)) zeros,
      .creat 0 1 (letter 97 (by decide)) zeros] (fun s => decide (s.2 = [⟨0, [97], 1⟩, ⟨0, [98], 2⟩]))
    (fun _ c test => by cases c with | unlink => cases test | _ => trivial) (by decide +kernel)
  have made : log = [⟨0, [97], 1⟩, ⟨0, [98], 2⟩] := of_decide_eq_true check
  obtain ⟨q, _, _, lookup, _⟩ := lookup_and_listing (σ := Unit) (by decide) smallest_formatted (smallest_mounted .host) run .root
  refine ⟨u, log, run, ?_, ?_⟩
  · exact (lookup (letter 98 (by decide))).2.2.1 ⟨0, [98], 2⟩ (by rw [made]; decide) rfl rfl
  · refine (lookup (letter 99 (by decide))).2.2.2 (by decide) (by decide) ?_
    rw [made]
    decide

end Icix
