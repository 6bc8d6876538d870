import Icix.Library.Trees
import Icix.Fs.Effect
import Icix.Fs.Extend
import Icix.Fs.Mount

/-! The directories as a tree of links, one link for each creation that was committed.
A directory lists itself and the one above it, and then what was created in it. -/
namespace Icix
open Bytes Ownership Trees

abbrev Dirs := Tree (List Byte) (0 : Nat)

/- "." and "..", where the directory has been entered in another one. -/
def Dirs.dots (t : Dirs) (p : Nat) : Entries :=
  match t.above p with
  | some q => [([46], p), ([46, 46], q)]
  | none => []

def Dirs.entries (t : Dirs) (p : Nat) : Entries := Dirs.dots t p ++ t.children p

/-- The directories of the state are those of the tree. -/
structure Ufs.Represents (u : Ufs) (t : Dirs) : Prop where
  root : u.allocated 0 ∧ (u.inodes 0).type = ufsDirectory
  live : ∀ l ∈ t.links, u.allocated l.dir ∧ (u.inodes l.dir).type = ufsDirectory ∧ u.allocated l.node
  dirs : ∀ p, u.allocated p → (u.inodes p).type = ufsDirectory →
    u.Dense p (Dirs.entries t p) ∨ u.Blank p ∧ t.above p = none
  names : ∀ p, ((Dirs.entries t p).map Prod.fst).Nodup

theorem lookup_none {es : Entries} {name : List Byte} (absent : es.lookup name = none) :
    name ∉ es.map Prod.fst := by
  intro mem
  obtain ⟨⟨n, i⟩, inside, rfl⟩ := List.mem_map.mp mem
  exact absurd (List.lookup_eq_none_iff.mp absent _ inside) (by simp)

theorem lookup_of_mem {es : Entries} (names : (es.map Prod.fst).Nodup) {e : List Byte × Nat} (mem : e ∈ es) :
    es.lookup e.1 = some e.2 := by
  obtain ⟨before, after, rfl⟩ := List.append_of_mem mem
  refine List.lookup_eq_some_iff.mpr ⟨before, after, rfl, fun k old => ?_⟩
  rw [List.map_append, List.map_cons, List.nodup_append] at names
  simpa using (names.2.2 k.1 (List.mem_map_of_mem old) e.1 (List.mem_cons_self ..)).symm

/-- No two entries have one name. -/
theorem names_index {es : Entries} (names : (es.map Prod.fst).Nodup) {i j : Nat} (hi : i < es.length)
    (hj : j < es.length) (same : es[i].1 = es[j].1) : i = j := by
  have first : i < (es.map Prod.fst).length := by rwa [List.length_map]
  have second : j < (es.map Prod.fst).length := by rwa [List.length_map]
  have equal : (es.map Prod.fst)[i] = (es.map Prod.fst)[j] := by simp only [List.getElem_map, same]
  exact names.getElem_inj_iff.mp equal

/-- A new link adds an entry to its directory, and makes the node it enters a directory
with two of its own. -/
theorem entries_insert {t : Dirs} {p i : Nat} {name : List Byte} (new : t.Unlinked i) (other : i ≠ 0)
    (hp : p ≠ i) (q : Nat) : Dirs.entries (t.insert ⟨p, name, i⟩ new other) q =
      if q = i then [([46], i), ([46, 46], p)]
      else Dirs.entries t q ++ if p = q then [(name, i)] else [] := by
  unfold Dirs.entries Dirs.dots
  rw [Tree.children_insert new other]
  by_cases same : q = i
  · subst q
    rw [if_pos rfl, Tree.above_insert_self new other, Tree.children_unlinked new, if_neg hp]
    rfl
  · rw [if_neg same, Tree.above_insert new other same, List.append_assoc]

section Lookup

variable {b : Build} {u : Ufs} {p : Nat} {name : CString} (sound : u.Sound b)
include sound

/-- A directory in which a name is missing lists the tree's entries, without that name. -/
theorem Ufs.Represents.absent {t : Dirs} (placed : u.Placed) (rep : u.Represents t) (live : u.allocated p)
    (dir : (u.inodes p).type = ufsDirectory) (absent : ufsLookup b u p name = .ok (-1)) :
    u.Dense p (Dirs.entries t p) ∧ name.chars ∉ (Dirs.entries t p).map Prod.fst := by
  rcases rep.dirs p live dir with dense | ⟨blank, _⟩
  · rw [ufsLookup_dense name sound placed live dense dir] at absent
    refine ⟨dense, lookup_none ?_⟩
    cases found : (Dirs.entries t p).lookup name.chars with
    | none => rfl
    | some inum =>
      rw [found] at absent
      exact absurd (Except.ok.inj absent) (by omega)
  · obtain ⟨message, fault⟩ := blank.lookup sound live dir name
    rw [fault] at absent
    cases absent

end Lookup

/-- A step that keeps the directories' inodes and bytes. The ones it makes have no block. -/
structure Ufs.SameDirectories (u w : Ufs) : Prop where
  keeps : Keeps (fun q _ => (u.inodes q).type ≠ ufsDirectory) u w
  inode : ∀ q, u.allocated q → (u.inodes q).type = ufsDirectory → w.inodes q = u.inodes q
  new : ∀ q, w.allocated q → (w.inodes q).type = ufsDirectory →
    (u.allocated q ∧ (u.inodes q).type = ufsDirectory) ∨ ¬ u.allocated q ∧ ∀ a, (w.inodes q).ptr a = -1

/-- A creation that fails keeps all directories. -/
theorem Created.sameDirectories {b : Build} {u w : Ufs} {p inum : Nat} {type : Word} {name : CString} {stk : Stack}
    (live : u.allocated p) (hi : inum < u.s.ni) (clear : getBitmap u.inodeBp inum = false)
    (created : Created b u p inum type name stk .failed w) : u.SameDirectories w := by
  obtain ⟨keeps, parent, empty⟩ :=
    @Created.failed _ _ _ _ _ _ _ _ (fun q _ => (u.inodes q).type ≠ ufsDirectory) live hi clear created
  have free : ¬ u.allocated inum := fun h => Bool.noConfusion (clear.symm.trans h.2)
  have inode : ∀ q, u.allocated q → w.inodes q = u.inodes q := by
    intro q liveQ
    by_cases same : q = p
    · exact same ▸ parent
    · exact created.other (fun h => free (h ▸ liveQ)) same
  refine ⟨keeps, fun q liveQ _ => inode q liveQ, fun q liveQ dirQ => ?_⟩
  rcases (created.allocated hi q).mp liveQ with rfl | old
  · exact Or.inr ⟨free, empty⟩
  · exact Or.inl ⟨old, inode q old ▸ dirQ⟩

/-- So does a write to a regular file. -/
theorem Wrote.sameDirectories {u w : Ufs} {i start n : Nat} {buf : Nat → Byte} {r : Int} (owned : u.Owned)
    (regular : (u.inodes i).type = ufsRegularFile) (wrote : Wrote u i buf start n r w) : u.SameDirectories w := by
  obtain ⟨cur, writing⟩ : ∃ cur, Writing u i buf start cur w := by
    cases wrote with
    | all writing => exact ⟨_, writing⟩
    | full writing => exact ⟨_, writing⟩
  have apart : ∀ q, (u.inodes q).type = ufsDirectory → q ≠ i := by
    rintro q dir rfl
    rw [regular] at dir
    cases dir
  refine ⟨⟨fun q live => (writing.allocated q).mpr live, fun q a _ real => writing.held real,
    fun q x live real skip => ?_⟩, fun q _ dir => writing.other q (apart q dir), fun q live dir => ?_⟩
  · exact writing.kept owned q x live real (fun same => absurd same (apart q (by simpa using skip)))
  · refine Or.inl ⟨(writing.allocated q).mp live, ?_⟩
    by_cases same : q = i
    · rw [same, writing.type, regular] at dir
      cases dir
    · rw [← writing.other q same]
      exact dir

namespace Ufs.Represents

variable {b : Build} {u w : Ufs} {t : Dirs} (rep : u.Represents t)
include rep

theorem unlinked {i : Nat} (free : ¬ u.allocated i) : t.Unlinked i := by
  refine fun l mem => ⟨?_, ?_⟩
  · rintro rfl
    exact free (rep.live l mem).1
  · rintro rfl
    exact free (rep.live l mem).2.2

theorem kept (same : u.SameDirectories w) : w.Represents t := by
  obtain ⟨keeps, inode, new⟩ := same
  refine ⟨⟨keeps.allocated 0 rep.root.1, ?_⟩, fun l mem => ?_, fun p live dir => ?_, rep.names⟩
  · rw [inode 0 rep.root.1 rep.root.2]
    exact rep.root.2
  · obtain ⟨dirLive, dirType, nodeLive⟩ := rep.live l mem
    refine ⟨keeps.allocated _ dirLive, ?_, keeps.allocated _ nodeLive⟩
    rw [inode _ dirLive dirType]
    exact dirType
  · rcases new p live dir with ⟨old, dirU⟩ | ⟨fresh, empty⟩
    · rcases rep.dirs p old dirU with dense | ⟨blank, bare⟩
      · exact Or.inl (dense.keeps old keeps (inode p old dirU) (fun _ skip => skip dirU))
      · refine Or.inr ⟨?_, bare⟩
        rw [Ufs.Blank, inode p old dirU]
        exact blank
    · have unlinked := rep.unlinked fresh
      have other : p ≠ 0 := fun same => fresh (same ▸ rep.root.1)
      have bare := Tree.above_unlinked unlinked other
      by_cases size : (w.inodes p).size = 0
      · have none : Dirs.entries t p = [] := by
          rw [Dirs.entries, Dirs.dots, bare, Tree.children_unlinked unlinked]
          rfl
        rw [none]
        refine Or.inl ⟨size, by decide, fun a => ?_, fun t h => (nomatch h), fun t low high => ?_⟩
        · simp [empty a]
        · simp at high
      · exact Or.inr ⟨⟨empty, size⟩, bare⟩

section Creat

variable {p inum : Nat} {type : Word} {name : CString} {stk : Stack} {r : Creat}
  (live : u.allocated p) (dir : (u.inodes p).type = ufsDirectory) (hi : inum < u.s.ni)
  (clear : getBitmap u.inodeBp inum = false)
include live dir hi clear

/-- A creation that commits adds its link. -/
theorem committed (sound : u.Sound b) (owned : u.Owned) (absent : ufsLookup b u p name = .ok (-1))
    (short : name.chars.length ≤ 27)
    (rest : ∀ junk, (junk = stk.dent ∨ junk = stk.newBlock) → ∀ k ≤ name.chars.length, copied b name ≤ k →
      junk k = name.mem k)
    (created : Created b u p inum type name stk .committed w) :
    ∃ new other, w.Represents (t.insert ⟨p, name.chars, inum⟩ new other) := by
  have free : ¬ u.allocated inum := fun h => Bool.noConfusion (clear.symm.trans h.2)
  have new : t.Unlinked inum := rep.unlinked free
  have other : inum ≠ 0 := fun same => free (same ▸ rep.root.1)
  have hp := claimed_ne live clear
  obtain ⟨dense, absent⟩ := rep.absent sound owned.placed live dir absent
  obtain ⟨_, room, ⟨m, made, ext⟩, newDir⟩ := created.extends sound owned live hi clear dense.packed
  have small : inum < 2147483648 := Nat.lt_trans hi u.s.ni_lt
  have entry := made.entry short small (rest _ (by unfold entryJunk; split <;> simp))
  have entries := @entries_insert _ _ _ name.chars new other hp
  have type : ∀ q, u.allocated q → (w.inodes q).type = (u.inodes q).type := by
    intro q liveQ
    by_cases same : q = p
    · rw [same, created.parent_type live clear]
    · rw [created.other (fun h => free (h ▸ liveQ)) same]
  refine ⟨new, other, ⟨ext.keeps.allocated 0 rep.root.1, (type 0 rep.root.1).trans rep.root.2⟩, fun l mem => ?_,
    fun q liveQ dirQ => ?_, fun q => ?_⟩
  · rcases List.mem_append.mp mem with old | last
    · obtain ⟨dirLive, dirType, nodeLive⟩ := rep.live l old
      exact ⟨ext.keeps.allocated _ dirLive, (type _ dirLive).trans dirType, ext.keeps.allocated _ nodeLive⟩
    · cases List.mem_singleton.mp last
      exact ⟨ext.keeps.allocated _ live, (type _ live).trans dir, (created.allocated hi _).mpr (Or.inl rfl)⟩
  · rw [entries]
    by_cases claimed : q = inum
    · subst q
      rw [if_pos rfl]
      exact Or.inl (newDir ((created.claimed live clear).1.symm.trans dirQ))
    · rw [if_neg claimed]
      have old := ((created.allocated hi q).mp liveQ).resolve_left claimed
      by_cases parent : p = q
      · subst q
        rw [if_pos rfl]
        exact Or.inl (ext.dense live dense room entry)
      · have inode := created.other claimed (Ne.symm parent)
        rw [if_neg parent, List.append_nil, Tree.above_insert new other claimed]
        rcases rep.dirs q old (inode ▸ dirQ) with denseQ | ⟨blank, bare⟩
        · exact Or.inl (denseQ.keeps old ext.keeps inode (fun x skip => parent skip.1.symm))
        · refine Or.inr ⟨?_, bare⟩
          rw [Ufs.Blank, inode]
          exact blank
  · rw [entries]
    by_cases claimed : q = inum
    · rw [if_pos claimed]
      exact (by decide : ([[46], [46, 46]] : List (List Byte)).Nodup)
    · rw [if_neg claimed]
      by_cases parent : p = q
      · subst q
        rw [if_pos rfl, List.map_append]
        refine (rep.names p).append (List.nodup_singleton _) (fun n old last => ?_)
        cases List.mem_singleton.mp last
        exact absent old
      · rw [if_neg parent, List.append_nil]
        exact rep.names q

end Creat

end Ufs.Represents

/-- The root of a new file system, which is its own parent. -/
theorem Ufs.Fresh.dense {b : Build} {u : Ufs} {stk : Stack} (fresh : u.Fresh b stk) :
    u.Dense 0 [([46], 0), ([46, 46], 0)] := by
  refine @dirBytes_dense .host _ _ _ stk _ fresh.region_real (by rw [fresh.root]; rfl) fresh.root_ptr
    (fun y hy => ?_) (by decide) (by decide)
  have block : y / 4096 = 0 := by omega
  have rem : y % 4096 = y := by omega
  rw [Ufs.fileByte, block, rem, fresh.root_ptr, if_pos rfl]
  exact fresh.block y hy

theorem Ufs.Fresh.represents {b : Build} {u : Ufs} {stk : Stack} (fresh : u.Fresh b stk) :
    u.Represents (Tree.leaf (List Byte) 0) := by
  have alone : Dirs.entries (Tree.leaf (List Byte) 0) 0 = [([46], 0), ([46, 46], 0)] := rfl
  refine ⟨⟨(fresh.allocated 0).mpr rfl, by rw [fresh.root]; rfl⟩, fun l mem => (nomatch mem), fun p live _ => ?_,
    fun p => ?_⟩
  · rw [(fresh.allocated p).mp live, alone]
    exact Or.inl fresh.dense
  · by_cases root : p = 0
    · rw [root, alone]
      decide
    · have none : Dirs.entries (Tree.leaf (List Byte) 0) p = [] := by
        rw [Dirs.entries, Dirs.dots, Tree.above, if_neg root]
        rfl
      rw [none]
      exact List.nodup_nil

end Icix
