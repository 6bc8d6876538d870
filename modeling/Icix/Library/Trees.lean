import Mathlib.Data.List.Nodup

/-! Trees as lists of named links, in the order in which the links were made. No two
links enter one node, and none enters the root. -/
namespace Trees

/-- In dir, node goes by name. -/
structure Link (ν ι : Type) where
  dir : ι
  name : ν
  node : ι
  deriving DecidableEq

structure Tree (ν : Type) {ι : Type} (root : ι) where
  links : List (Link ν ι)
  nodes : (links.map Link.node).Nodup
  below : ∀ l ∈ links, l.node ≠ root

namespace Tree

variable {ν ι : Type} [DecidableEq ι] {root : ι}

def leaf (ν : Type) (root : ι) : Tree ν root := ⟨[], List.nodup_nil, fun _ h => nomatch h⟩

def children (t : Tree ν root) (p : ι) : List (ν × ι) :=
  (t.links.filter fun l => l.dir = p).map fun l => (l.name, l.node)

/-- The node above p; the root is above itself. -/
def above (t : Tree ν root) (p : ι) : Option ι :=
  if p = root then some root else (t.links.find? fun l => l.node = p).map Link.dir

/-- Links lead to the node from the root. -/
inductive Rooted (t : Tree ν root) : ι → Prop
  | root : Rooted t root
  | link {l : Link ν ι} (mem : l ∈ t.links) (dir : Rooted t l.dir) : Rooted t l.node

/-- No link starts or ends at the node. -/
def Unlinked (t : Tree ν root) (i : ι) : Prop := ∀ l ∈ t.links, l.dir ≠ i ∧ l.node ≠ i

def insert (t : Tree ν root) (l : Link ν ι) (new : t.Unlinked l.node) (other : l.node ≠ root) : Tree ν root where
  links := t.links ++ [l]
  nodes := by
    refine List.map_append ▸ t.nodes.append (List.nodup_singleton _) (fun i old last => ?_)
    obtain ⟨k, mem, rfl⟩ := List.mem_map.mp old
    exact (new k mem).2 (List.mem_singleton.mp last)
  below k mem := by
    rcases List.mem_append.mp mem with old | last
    · exact t.below k old
    · exact List.mem_singleton.mp last ▸ other

def erase [DecidableEq ν] (t : Tree ν root) (l : Link ν ι) : Tree ν root where
  links := t.links.erase l
  nodes := t.nodes.sublist (List.erase_sublist.map _)
  below k mem := t.below k (List.mem_of_mem_erase mem)

omit [DecidableEq ι] in
theorem nodup (t : Tree ν root) : t.links.Nodup := t.nodes.of_map _

theorem mem_children {t : Tree ν root} {p i : ι} {name : ν} :
    (name, i) ∈ t.children p ↔ ⟨p, name, i⟩ ∈ t.links := by
  simp only [children, List.mem_map, List.mem_filter, decide_eq_true_eq, Prod.mk.injEq]
  constructor
  · rintro ⟨⟨dir, name, node⟩, ⟨mem, rfl⟩, rfl, rfl⟩
    exact mem
  · exact fun mem => ⟨⟨p, name, i⟩, ⟨mem, rfl⟩, rfl, rfl⟩

theorem children_unlinked {t : Tree ν root} {i : ι} (unlinked : t.Unlinked i) : t.children i = [] := by
  rw [children, List.filter_eq_nil_iff.mpr (fun l mem => by simpa using (unlinked l mem).1), List.map_nil]

theorem above_root (t : Tree ν root) : t.above root = some root := if_pos rfl

theorem above_of_mem {t : Tree ν root} {l : Link ν ι} (mem : l ∈ t.links) : t.above l.node = some l.dir := by
  have found : (t.links.find? fun k => k.node = l.node) = some l := by
    cases first : t.links.find? fun k => k.node = l.node with
    | none => exact absurd (List.find?_eq_none.mp first l mem) (by simp)
    | some k =>
      have same : k.node = l.node := by simpa using List.find?_some first
      rw [List.inj_on_of_nodup_map t.nodes (List.mem_of_find?_eq_some first) mem same]
  rw [above, if_neg (t.below l mem), found, Option.map_some]

theorem above_cases {t : Tree ν root} {p q : ι} (above : t.above p = some q) :
    (p = root ∧ q = root) ∨ ∃ l ∈ t.links, l.node = p ∧ l.dir = q := by
  unfold Tree.above at above
  split at above
  · rename_i same
    exact Or.inl ⟨same, (Option.some.inj above).symm⟩
  · obtain ⟨l, found, dir⟩ := Option.map_eq_some_iff.mp above
    exact Or.inr ⟨l, List.mem_of_find?_eq_some found, by simpa using List.find?_some found, dir⟩

theorem above_unlinked {t : Tree ν root} {i : ι} (unlinked : t.Unlinked i) (other : i ≠ root) :
    t.above i = none := by
  cases above : t.above i with
  | none => rfl
  | some q =>
    rcases above_cases above with ⟨same, _⟩ | ⟨l, mem, node, _⟩
    · exact absurd same other
    · exact absurd node (unlinked l mem).2

/-- The node above a rooted one is rooted. -/
theorem Rooted.above {t : Tree ν root} {p : ι} (rooted : t.Rooted p) :
    ∃ q, t.above p = some q ∧ t.Rooted q := by
  cases rooted with
  | root => exact ⟨root, t.above_root, .root⟩
  | link mem dir => exact ⟨_, above_of_mem mem, dir⟩

section Insert

variable {t : Tree ν root} {l : Link ν ι} (new : t.Unlinked l.node) (other : l.node ≠ root)

theorem children_insert (p : ι) : (t.insert l new other).children p =
    t.children p ++ if l.dir = p then [(l.name, l.node)] else [] := by
  simp only [children, insert, List.filter_append, List.map_append]
  congr 1
  by_cases same : l.dir = p <;> simp [same]

theorem above_insert_self : (t.insert l new other).above l.node = some l.dir :=
  above_of_mem (List.mem_append_right _ (List.mem_singleton.mpr rfl))

theorem above_insert {p : ι} (hp : p ≠ l.node) : (t.insert l new other).above p = t.above p := by
  have last : (fun k : Link ν ι => decide (k.node = p)) l = false := by simpa using Ne.symm hp
  simp only [above, insert, List.find?_append, List.find?_singleton, last, Bool.false_eq_true, if_false,
    Option.or_none]

end Insert

section Erase

variable [DecidableEq ν] {t : Tree ν root} {l : Link ν ι}

theorem mem_erase {k : Link ν ι} : k ∈ (t.erase l).links ↔ k ≠ l ∧ k ∈ t.links := t.nodup.mem_erase_iff

theorem children_erase_other {p : ι} (hp : p ≠ l.dir) : (t.erase l).children p = t.children p := by
  have skip : ¬ (decide (l.dir = p) = true) := by simpa using Ne.symm hp
  rw [children, children, erase, ← List.erase_filter, List.erase_of_not_mem]
  exact fun mem => skip (List.mem_filter.mp mem).2

/-- Removing the last link made in a node removes its last child. -/
theorem children_erase_last {es : List (ν × ι)} (last : t.children l.dir = es ++ [(l.name, l.node)]) :
    (t.erase l).children l.dir = es := by
  obtain ⟨before, one, split, names, name⟩ := List.map_eq_append_iff.mp last
  obtain ⟨k, rfl, same⟩ := List.map_eq_singleton_iff.mp name
  have dir : k.dir = l.dir := by
    have mem : k ∈ t.links.filter fun j => j.dir = l.dir := split ▸ List.mem_append_right _ (List.mem_singleton.mpr rfl)
    simpa using (List.mem_filter.mp mem).2
  have same : k = l := by
    obtain ⟨kdir, kname, knode⟩ := k
    obtain ⟨rfl, rfl⟩ := Prod.mk.inj same
    cases dir
    rfl
  subst k
  have once : l ∉ before := by
    have nodup := t.nodup.filter fun j => decide (j.dir = l.dir)
    rw [split, List.nodup_append] at nodup
    exact fun mem => nodup.2.2 l mem l (List.mem_singleton.mpr rfl) rfl
  rw [children, erase, ← List.erase_filter, split, List.erase_append_right _ once, List.erase_cons_head,
    List.append_nil, names]

theorem above_erase_self (mem : l ∈ t.links) : (t.erase l).above l.node = none := by
  cases above : (t.erase l).above l.node with
  | none => rfl
  | some q =>
    rcases above_cases above with ⟨same, _⟩ | ⟨k, left, node, _⟩
    · exact absurd same (t.below l mem)
    · obtain ⟨differs, old⟩ := mem_erase.mp left
      exact absurd (List.inj_on_of_nodup_map t.nodes old mem node) differs

theorem above_erase {p : ι} (hp : p ≠ l.node) : (t.erase l).above p = t.above p := by
  cases above : t.above p with
  | none =>
    cases left : (t.erase l).above p with
    | none => rfl
    | some q =>
      rcases above_cases left with ⟨rfl, rfl⟩ | ⟨k, mem, rfl, rfl⟩
      · rw [above_root] at above
        cases above
      · rw [above_of_mem (mem_erase.mp mem).2] at above
        cases above
  | some q =>
    rcases above_cases above with ⟨rfl, rfl⟩ | ⟨k, mem, rfl, rfl⟩
    · exact above_root _
    · exact above_of_mem (mem_erase.mpr ⟨fun same => hp (same ▸ rfl), mem⟩)

end Erase

end Tree

end Trees
