import Icix.Fs.Boot
import Icix.Fs.Descent
import Icix.Fs.Listing

/-! What the kernel prints when it boots from the host's image: print_fs_contents over the driver,
and the text for a tree of directories. -/
namespace Icix
open Bytes Runs Fuel Trees Lifting

/- ufs_read and malloc of the kernel, on the driver and the heap. -/
def Ramdisk.services (passes : Nat) (memory : Word → Byte) (junk : Nat → Byte) (v : Volume) : Services (Initrd × Heap) where
  ufsRead s inum buffer offset nbytes :=
    ((Ramdisk.drive memory junk).ufsRead v inum buffer offset nbytes s.1).map fun out => (out.1, out.2, s.2)
  malloc s size := (kernelMalloc passes s.2 size).map fun h => (s.1, h)

/- The text for a directory without what is in it. -/
def directoryText (inum : Nat) (es : Entries) : List Byte :=
  Libc.bytes "\n" ++ titleText inum ++ es.flatMap entryText ++ Libc.bytes "\n"

/-- The text for what is in directory p, after the creations of a log. Everything in a directory
was created after the directory. -/
def treeText (contents : Nat → List Byte) : List (Link (List Byte) Nat) → Nat → List Byte
  | [], _ => []
  | l :: log, p =>
    if l.dir = p then
      (if l.name.head? = some (Libc.ch 'd') then directoryText l.node (listing log l.node p) ++ treeText contents log l.node
      else fileText l.node (contents l.node)) ++ treeText contents log p
    else treeText contents log p

/- How many files that text has. -/
def treeFiles : List (Link (List Byte) Nat) → Nat → Nat
  | [], _ => 0
  | l :: log, p =>
    if l.dir = p then
      (if l.name.head? = some (Libc.ch 'd') then treeFiles log l.node else 1) + treeFiles log p
    else treeFiles log p

/-- The text for the root. -/
def bootText (contents : Nat → List Byte) (log : List (Link (List Byte) Nat)) : List Byte :=
  directoryText 0 (listing log 0 0) ++ treeText contents log 0

/-- The bytes of a file. -/
def Ufs.contents (u : Ufs) (i : Nat) : List Byte :=
  (List.range (u.inodes i).size.toInt.toNat).map (u.fileByte i)

/-- The reads that the state answers are answered, and n more calls of malloc for one byte return. -/
structure Serves {σ : Type} (sys : Services σ) (u : Ufs) (ready : Nat → σ → Prop) : Prop where
  read : ∀ inum buffer offset nbytes out, Icix.ufsRead .host u inum buffer offset nbytes = .ok out → ∀ n s, ready n s →
    ∃ t, sys.ufsRead s inum buffer offset nbytes = .ok (out, t) ∧ ready n t
  malloc : ∀ n s, ready (n + 1) s → ∃ t, sys.malloc s 1 = .ok t ∧ ready n t

section Text

variable {σ : Type} (con : Console) {sys : Services σ} {u : Ufs} {ready : Nat → σ → Prop} (serves : Serves sys u ready)
  (sound : u.Sound .host) (placed : u.Placed)
include serves sound placed

/-- What print_file prints from an offset on. -/
theorem printBytes_yields {i : Nat} (live : u.allocated i) (regular : (u.inodes i).type = ufsRegularFile)
    (complete : u.Complete) (n left : Nat) {x : Nat} (rest : x + left = (u.inodes i).size.toInt.toNat) (c : Nat → Byte) :
    Yields (ready n) (ready n) (fun fuel s => printBytes con sys i fuel x c s)
      ((List.range' x left).map (u.fileByte i)) := by
  have small := complete.size_le live regular
  induction left generalizing x c with
  | zero =>
    have stop : ufsRead .host u i c x 1 = .ok (-1, c) := by
      refine ufsRead_unreadable (fun readable => ?_)
      have size := readable.size
      rw [int32_eq (by omega) (by omega), Int.toNat_natCast] at size
      omega
    refine Yields.later (yields_now fun s here => ?_)
    obtain ⟨t, read, next⟩ := serves.read i c x 1 _ stop n s here
    exact ⟨t, next, fun fuel => by simp [printBytes, read]⟩
  | succ left ih =>
    have block : 4096 * ((x / 4096 : Nat) : Int) < (u.inodes i).size.toInt := by omega
    have fetched := fetch_held sound placed live (complete i live regular (x / 4096) block)
    obtain ⟨out, byte⟩ := (delivers_fetch (n := 1) live regular (Int.natCast_nonneg x) (by decide) (by omega) (by omega)
      c [u.fileByte i x]).mpr (by simpa using fetched)
    have first : out 0 = u.fileByte i x := by simpa using byte.2
    have following : int32 ((x : Int) + 1) = ((x + 1 : Nat) : Int) := int32_eq (by omega) (by omega)
    refine Yields.later ((ih (x := x + 1) (by omega) out).step fun s here => ?_)
    obtain ⟨t, read, next⟩ := serves.read i c x 1 _ byte.1 n s here
    refine ⟨t, next, fun fuel w rest => ?_⟩
    simp only [printBytes, read, once_ok_bind, ne_eq, not_true, if_false, first, says_char, ok_bind, following, rest,
      List.range'_succ, List.map_cons, List.singleton_append]

theorem printFile_yields {i : Nat} (live : u.allocated i) (regular : (u.inodes i).type = ufsRegularFile)
    (complete : u.Complete) (n : Nat) :
    Yields (ready (n + 1)) (ready n) (fun fuel s => printFile con sys fuel i s) (fileText i (u.contents i)) := by
  have bound := Nat.lt_trans live.1 u.s.ni_lt
  have title := says_number con con.junk "contents of file (inode no. %d): \n    " "contents of file (inode no. " "): \n    "
    (v := i) (by omega) (by omega) (by decide +kernel) (by decide +kernel) (by decide +kernel)
  have bytes := printBytes_yields con serves sound placed live regular complete n (u.inodes i).size.toInt.toNat
    (x := 0) (Nat.zero_add _) con.junk
  refine bytes.step fun s here => ?_
  obtain ⟨t, made, next⟩ := serves.malloc n s here
  refine ⟨t, next, fun fuel w printed => ?_⟩
  simp only [Int.natCast_zero] at printed
  simp only [printFile, says_line, title, made, once_ok_bind, printed, ok_bind, fileText, Ufs.contents, List.range_eq_range']

section Directory

variable {p q : Nat} {es : Entries} (live : u.allocated p) (dense : u.Dense p es)
include live dense

/-- What the first loop prints from an entry on. -/
theorem listEntries_yields (n left : Nat) {t : Nat} (rest : t + left = es.length) (et : Nat → Byte) :
    ∃ last, Yields (ready n) (ready n) (fun fuel s => listEntries con sys p fuel ((32 * t : Nat) : Int) et s)
      ((es.drop t).flatMap entryText, last) := by
  have le := dense.length_le
  induction left generalizing t et with
  | zero =>
    have stop := ufsRead_end (b := .host) dense et
    have stops : t = es.length := by omega
    subst stops
    refine ⟨et, Yields.later (yields_now fun s here => ?_)⟩
    obtain ⟨w, read, next⟩ := serves.read p et _ 32 _ stop n s here
    have ended : (-1 : Int) ≠ 0 ∨ entInum et = -1 := .inl (by decide)
    refine ⟨w, next, fun fuel => ?_⟩
    simp only [listEntries, read, once_ok_bind, if_pos ended, List.drop_length, List.flatMap_nil]
  | succ left ih =>
    have inside : t < es.length := by omega
    obtain ⟨out, turn, entry⟩ := ufsRead_entry sound placed live dense inside et
    obtain ⟨last, later⟩ := ih (t := t + 1) (by omega) out
    have following : int32 (((32 * t : Nat) : Int) + 32) = ((32 * (t + 1) : Nat) : Int) := int32_offset (t := t + 1) (by omega)
    have more : ¬ ((0 : Int) ≠ 0 ∨ entInum out = -1) := fun stop => stop.elim (fun h => h rfl) entry.used.1
    refine ⟨last, Yields.later (later.step fun s here => ?_)⟩
    obtain ⟨w, read, next⟩ := serves.read p et _ 32 _ turn n s here
    refine ⟨w, next, fun fuel w printed => ?_⟩
    simp only [listEntries, read, once_ok_bind, if_neg more, says_entry con entry, ok_bind, following, printed,
      List.drop_eq_getElem_cons inside, List.flatMap_cons]

/-- An entry for the directory or the one above it is passed over. -/
theorem printEntries_dots {n m t : Nat} (inside : t < es.length) (dots : es[t].1 = [46] ∨ es[t].1 = [46, 46])
    {text : List Byte} (rest : ∀ et, Yields (ready n) (ready m)
      (fun fuel s => printEntries con sys fuel p ((32 * (t + 1) : Nat) : Int) et s) text) (et : Nat → Byte) :
    Yields (ready n) (ready m) (fun fuel s => printEntries con sys fuel p ((32 * t : Nat) : Int) et s) text := by
  have le := dense.length_le
  obtain ⟨out, turn, entry⟩ := ufsRead_entry sound placed live dense inside et
  have following : int32 (((32 * t : Nat) : Int) + 32) = ((32 * (t + 1) : Nat) : Int) := int32_offset (t := t + 1) (by omega)
  have more : ¬ ((0 : Int) ≠ 0 ∨ entInum out = -1) := fun stop => stop.elim (fun h => h rfl) entry.used.1
  have file : out 0 ≠ Libc.ch 'd' := by
    have holds := entry.holds
    rcases dots with self | up
    · rw [self] at holds
      exact holds.1 ▸ (by decide)
    · rw [up] at holds
      exact holds.1 ▸ (by decide)
  have other : ¬ (es[t].1 ≠ [46] ∧ es[t].1 ≠ [46, 46]) := fun both => dots.elim both.1 both.2
  have short := entry.short
  refine Yields.later ((rest out).step fun s here => ?_)
  obtain ⟨w, read, next⟩ := serves.read p et _ 32 _ turn n s here
  refine ⟨w, next, fun fuel w printed => ?_⟩
  simp only [printEntries, printEntry, read, once_ok_bind, if_neg more, if_neg file, isOther_name con entry.holds (by omega),
    decide_eq_false other, Bool.false_eq_true, if_false, ok_bind, following, printed, List.nil_append]

/-- print_fs_contents, from what its second loop prints. -/
theorem printFsContents_yields (first : es[0]? = some ([46], p)) (second : es[1]? = some ([46, 46], q)) {n m : Nat}
    {text : List Byte} (inner : ∀ et, Yields (ready n) (ready m)
      (fun fuel s => printEntries con sys fuel p ((32 * 2 : Nat) : Int) et s) text) :
    Yields (ready n) (ready m) (fun fuel s => printFsContents con sys fuel p s) (directoryText p es ++ text) := by
  have bound := Nat.lt_trans live.1 u.s.ni_lt
  obtain ⟨zero, self⟩ := List.getElem?_eq_some_iff.mp first
  obtain ⟨one, up⟩ := List.getElem?_eq_some_iff.mp second
  have below := printEntries_dots con serves sound placed live dense one (.inr (by rw [up])) inner
  have entries := printEntries_dots con serves sound placed live dense zero (.inl (by rw [self])) below
  obtain ⟨last, listed⟩ := listEntries_yields con serves sound placed live dense n es.length (t := 0)
    (Nat.zero_add _) con.junk
  refine Yields.later (listed.both (entries last) fun s here => ⟨s, here, fun fuel t w list print => ?_⟩)
  simp only [Nat.mul_zero, Int.natCast_zero] at list print
  simp only [printFsContents, says_line, says_title con con.junk bound, list, print, ok_bind, directoryText, List.drop_zero]

end Directory

end Text

/-- Nothing in a directory was created before the directory. -/
structure Ordered (log : List (Link (List Byte) Nat)) : Prop where
  later : log.Pairwise fun l m => l.dir ≠ m.node
  own : ∀ l ∈ log, l.dir ≠ l.node

/-- The names that start with a 'd' are directories', all others are regular files'. -/
def Ufs.NamedByKind (u : Ufs) (log : List (Link (List Byte) Nat)) : Prop :=
  ∀ l ∈ log, (u.inodes l.node).type =
    if l.name.head? = some (Libc.ch 'd') then ufsDirectory else ufsRegularFile

/- The directory's entries from its third on that are still to come. -/
theorem listing_split {before log : List (Link (List Byte) Nat)} {p : Nat} (none : ∀ m ∈ before, m.dir ≠ p) (q : Nat) :
    listing (before ++ log) p q = listing log p q := by
  have nothing : before.filter (fun l => l.dir = p) = [] :=
    List.filter_eq_nil_iff.mpr fun m inside => by simpa using none m inside
  simp [listing, List.filter_append, nothing]

theorem Ordered.before {before log : List (Link (List Byte) Nat)} {l : Link (List Byte) Nat}
    (ordered : Ordered (before ++ l :: log)) : ∀ m ∈ before ++ [l], m.dir ≠ l.node := by
  have apart := List.pairwise_append.mp ordered.later
  intro m mem
  rcases List.mem_append.mp mem with old | self
  · exact apart.2.2 m old l List.mem_cons_self
  · exact List.mem_singleton.mp self ▸ ordered.own l (List.mem_append_right _ List.mem_cons_self)

/-- Only the first two entries go by "." and "..". -/
theorem listing_third {log : List (Link (List Byte) Nat)} {p q k : Nat} (names : ((listing log p q).map Prod.fst).Nodup)
    (past : 2 ≤ k) (inside : k < (listing log p q).length) :
    (listing log p q)[k].1 ≠ [46] ∧ (listing log p q)[k].1 ≠ [46, 46] := by
  have other : ∀ j < 2, (hj : j < (listing log p q).length) → (listing log p q)[k].1 ≠ (listing log p q)[j].1 := by
    intro j low hj same
    have index := names_index names inside hj same
    omega
  exact ⟨other 0 (by decide) (by omega), other 1 (by decide) (by omega)⟩

theorem head_first {m : Nat → Byte} {name : List Byte} (holds : Holds m name) :
    m 0 = Libc.ch 'd' ↔ name.head? = some (Libc.ch 'd') := by
  cases name with
  | nil => simpa using holds ▸ (by decide : (0 : Byte) ≠ Libc.ch 'd')
  | cons c rest => simp [holds.1]

theorem printEntry_yields {σ : Type} (con : Console) {pre post : σ → Prop} {m : Nat → Byte} {name : List Byte} {inum : Nat}
    (entry : EntryAt m name inum) (self : name ≠ [46]) (up : name ≠ [46, 46])
    {directory file : Nat → σ → Timed Fault (List Byte × σ)} {inner text : List Byte}
    (below : name.head? = some (Libc.ch 'd') → Yields pre post directory inner)
    (regular : name.head? ≠ some (Libc.ch 'd') → Yields pre post file text) :
    Yields pre post (fun fuel s => printEntry con m (directory fuel) (file fuel) s)
      (if name.head? = some (Libc.ch 'd') then inner else text) := by
  have short := entry.short
  have first := head_first entry.holds
  by_cases named : name.head? = some (Libc.ch 'd')
  · simpa only [printEntry, first.mpr named, if_true, named] using below named
  · simpa only [printEntry, if_neg (mt first.mp named), isOther_name con entry.holds (by omega),
      decide_eq_true (And.intro self up), once_ok_bind, if_true, if_neg named] using regular named

section Tree

variable {σ : Type} {sys : Services σ} {u : Ufs} {ready : Nat → σ → Prop} {t : Dirs} (rep : u.Represents t)

include rep in
theorem Ufs.Represents.listed {p q : Nat} (rooted : t.Rooted p) (dir : (u.inodes p).type = ufsDirectory)
    (above : t.above p = some q) :
    u.Dense p (listing t.links p q) ∧ ((listing t.links p q).map Prod.fst).Nodup := by
  obtain ⟨q', above', _, entries, dense⟩ := rep.rooted_dense rooted dir
  cases above.symm.trans above'
  change Dirs.entries t p = listing t.links p q at entries
  exact entries ▸ ⟨dense, rep.names p⟩

variable (con : Console) (serves : Serves sys u ready) (sound : u.Sound .host) (placed : u.Placed) (complete : u.Complete)
  (ordered : Ordered t.links) (named : u.NamedByKind t.links)
include serves sound placed complete rep ordered named

/-- What the second loop prints for a directory that the root leads to. -/
theorem printEntries_yields (before log : List (Link (List Byte) Nat)) (split : t.links = before ++ log) {n p q k : Nat}
    (rooted : t.Rooted p) (dir : (u.inodes p).type = ufsDirectory) (above : t.above p = some q) (past : 2 ≤ k)
    (le : k ≤ (listing t.links p q).length)
    (rest : (listing t.links p q).drop k = (log.filter fun l => l.dir = p).map fun l => (l.name, l.node)) (et : Nat → Byte) :
    Yields (ready (n + treeFiles log p)) (ready n)
      (fun fuel s => printEntries con sys fuel p ((32 * k : Nat) : Int) et s) (treeText u.contents log p) := by
  induction log generalizing before n p q k et with
  | nil =>
    obtain ⟨dense, _⟩ := rep.listed rooted dir above
    have last : k = (listing t.links p q).length := Nat.le_antisymm le (List.drop_eq_nil_iff.mp rest)
    have stop := ufsRead_end (b := .host) dense et
    rw [← last] at stop
    refine Yields.later (yields_now fun s here => ?_)
    obtain ⟨w, read, next⟩ := serves.read p et _ 32 _ stop n s here
    have ended : (-1 : Int) ≠ 0 ∨ entInum et = -1 := .inl (by decide)
    refine ⟨w, next, fun fuel => ?_⟩
    simp only [printEntries, read, once_ok_bind, if_pos ended, treeText]
  | cons l log ih =>
    have rearranged : t.links = (before ++ [l]) ++ log := by simp [split]
    by_cases here : l.dir = p
    · subst here
      obtain ⟨dense, names⟩ := rep.listed rooted dir above
      have short := dense.length_le
      have remaining : (listing t.links l.dir q).drop k =
          (l.name, l.node) :: (log.filter fun m => m.dir = l.dir).map fun m => (m.name, m.node) := by
        simpa [List.filter_cons] using rest
      have inside : k < (listing t.links l.dir q).length := by
        by_contra outside
        rw [List.drop_eq_nil_of_le (Nat.le_of_not_lt outside)] at remaining
        cases remaining
      rw [List.drop_eq_getElem_cons inside] at remaining
      obtain ⟨item, others⟩ := List.cons.inj remaining
      have mem : l ∈ t.links := by simp [split]
      have earlier := Ordered.before (split ▸ ordered)
      have third := listing_third names past inside
      obtain ⟨out, turn, entry⟩ := ufsRead_entry sound placed (rep.rooted_live rooted) dense inside et
      rw [item] at entry third
      have later := ih _ rearranged (n := n) rooted dir above (k := k + 1) (by omega) inside others out
      have following : int32 (((32 * k : Nat) : Int) + 32) = ((32 * (k + 1) : Nat) : Int) :=
        int32_offset (t := k + 1) (by omega)
      have more : ¬ ((0 : Int) ≠ 0 ∨ entInum out = -1) := fun stop => stop.elim (fun h => h rfl) entry.used.1
      have nodeLive := (rep.live l mem).2.2
      have kind := named l mem
      let files := if l.name.head? = some (Libc.ch 'd') then treeFiles log l.node else 1
      have directory : l.name.head? = some (Libc.ch 'd') → Yields (ready (n + treeFiles log l.dir + files))
          (ready (n + treeFiles log l.dir)) (fun fuel => printFsContents con sys fuel (entInum out).toInt)
          (directoryText l.node (listing log l.node l.dir) ++ treeText u.contents log l.node) := by
        intro name
        rw [if_pos name] at kind
        have aboveNode := Tree.above_of_mem mem
        have rootedNode : t.Rooted l.node := .link mem rooted
        obtain ⟨denseNode, _⟩ := rep.listed rootedNode kind aboveNode
        have same : listing t.links l.node l.dir = listing log l.node l.dir := by
          rw [rearranged]
          exact listing_split earlier l.dir
        have inner := ih _ rearranged (n := n + treeFiles log l.dir) rootedNode kind aboveNode (k := 2) (Nat.le_refl 2)
          (by simp [listing]) (by rw [same]; rfl)
        rw [entry.used.2, ← same, show files = treeFiles log l.node from if_pos name]
        exact printFsContents_yields con serves sound placed nodeLive denseNode rfl rfl inner
      have file : l.name.head? ≠ some (Libc.ch 'd') → Yields (ready (n + treeFiles log l.dir + files))
          (ready (n + treeFiles log l.dir)) (fun fuel => printFile con sys fuel (entInum out).toInt)
          (fileText l.node (u.contents l.node)) := by
        intro name
        rw [if_neg name] at kind
        rw [entry.used.2, show files = 1 from if_neg name]
        exact printFile_yields con serves sound placed nodeLive kind complete _
      have printed := printEntry_yields con entry third.1 third.2 directory file
      have count : n + treeFiles (l :: log) l.dir = n + treeFiles log l.dir + files := by
        rw [treeFiles, if_pos rfl]
        omega
      rw [count]
      refine Yields.later (printed.both later fun s here => ?_)
      obtain ⟨w, read, next⟩ := serves.read l.dir et _ 32 _ turn _ s here
      refine ⟨w, next, fun fuel w w' front back => ?_⟩
      simp only [printEntries, read, once_ok_bind, if_neg more, following, front, ok_bind, back, treeText, if_true]
    · simp only [treeText, treeFiles, if_neg here]
      refine ih _ rearranged rooted dir above past le ?_ et
      simpa [List.filter_cons, here] using rest

end Tree

/-- The kernel's own services, while its heap has room for n more pages. -/
theorem Loaded.serves {passes : Nat} {memory : Word → Byte} {junk : Nat → Byte} {v : Volume} {u : Ufs} (sound : u.Sound .host)
    (spares : u.SparesLast) (of : v.Of u) : Serves (Ramdisk.services passes memory junk v) u (fun n s =>
      Loaded memory s.1 u.disk ∧ ∃ h, Run (allocate passes) (fun _ _ => True) s.2 (List.replicate n 1) h) where
  read inum buffer offset nbytes out returned n s := by
    rintro ⟨loaded, room⟩
    obtain ⟨⟨out', e⟩, read, rfl, next⟩ := loaded.ufsRead sound spares of junk inum buffer offset nbytes out returned
    exact ⟨(e, s.2), map_ok.mpr ⟨_, read, rfl⟩, next, room⟩
  malloc n s := by
    rintro ⟨loaded, h, _ | ⟨-, made, rest⟩⟩
    exact ⟨(s.1, _), map_ok.mpr ⟨_, kernelMalloc_ok made, rfl⟩, loaded, h, rest⟩

/-- What a creation adds is not in use before, and its directory is. -/
theorem added_new {b : Build} {u w : Ufs} {c : Call} (sound : u.Sound b) (placed : u.Placed) (returned : call b u c = .ok w) :
    added b u c = [] ∨ ∃ l, added b u c = [l] ∧ u.allocated l.dir ∧ ¬ u.allocated l.node := by
  cases c with
  | creat pinum type name stk =>
    obtain ⟨⟨r, v⟩, run, -⟩ := bind_ok.mp returned
    rcases ufsCreat_cases sound placed run with ⟨rfl, -⟩ | ⟨inum, creatable, -⟩
    · exact .inl (by simp only [added, run])
    · cases r with
      | failed => exact .inl (by simp only [added, run])
      | committed =>
        obtain ⟨_, clear⟩ := emptyPosInode_some creatable.found
        refine .inr ⟨⟨pinum.toNat, name.chars, inum⟩, by simp only [added, run, creatable.found], creatable.live, ?_⟩
        exact fun live => Bool.noConfusion (clear.symm.trans live.2)
  | _ => exact .inl rfl

theorem Ordered.grows {b : Build} {u w : Ufs} {t : Dirs} {c : Call} (sound : u.Sound b) (placed : u.Placed)
    (rep : u.Represents t) (ordered : Ordered t.links) (returned : call b u c = .ok w) :
    Ordered (t.links ++ added b u c) := by
  rcases added_new sound placed returned with none | ⟨l, one, live, free⟩
  · simpa [none] using ordered
  · have apart : ∀ m ∈ t.links, m.dir ≠ l.node := fun m mem => (rep.unlinked free m mem).1
    have own : l.dir ≠ l.node := fun same => free (same ▸ live)
    rw [one]
    refine ⟨List.pairwise_append.mpr ⟨ordered.later, List.pairwise_singleton _ l, ?_⟩, ?_⟩
    · simpa using apart
    · intro m mem
      rcases List.mem_append.mp mem with old | new
      · exact ordered.own m old
      · exact List.mem_singleton.mp new ▸ own

/-- The tree of a run is its log, in the order of the creations. -/
theorem Run.logged {u₀ u : Ufs} {log : List (Link (List Byte) Nat)} {stk : Stack} {calls : List Call}
    (fresh : u₀.Fresh .host stk) (run : Run (logCall .host) (fun s => Removeless s.1) (u₀, []) calls (u, log)) :
    ∃ t : Dirs, t.links = log ∧ u.Represents t ∧ Ordered t.links := by
  obtain ⟨t, links, tidy, ordered⟩ := run.invariant
    (fun s => ∃ t : Dirs, t.links = s.2 ∧ s.1.Tidy .host t ∧ Ordered t.links)
    (fun s c s' ⟨t, links, tidy, ordered⟩ keep returned => by
      obtain ⟨w, result, rfl⟩ := map_ok.mp returned
      obtain ⟨t', links', tidy', _⟩ := tidy.grows keep result
      refine ⟨t', links ▸ links', tidy', ?_⟩
      rw [links']
      exact ordered.grows tidy.sound tidy.owned.placed tidy.represents result)
    ⟨_, rfl, fresh.tidy, ⟨.nil, fun _ none => by cases none⟩⟩
  exact ⟨t, links, tidy.represents, ordered⟩

/-- What the kernel prints of the disk when it boots is the text for the tree that the host has made:
after any run without ufs_unlink in which the names that start with a 'd' are the directories', and
which leaves no block of a file missing, print_fs_contents comes to its end and prints every
directory with its entries and every file with its bytes, each once and in the order of creation, if
the calls of malloc return, those of ufs_init and one for each file. -/
theorem boot_prints_tree {numInodes numData : Int} {stk : MkfsStack} {d₀ : Disk} {dirtyInodeBp dirtyDataBp : Bitmap}
    {u₀ u : Ufs} {log : List (Link (List Byte) Nat)} {calls : List Call} {memory : Word → Byte} {d : Initrd}
    {passes : Nat} {h h' : Heap}
    (small : 4096 * imageBlocks numInodes.toNat numData.toNat < 2147483648)
    (formatted : mkfs numInodes numData stk = .ok d₀)
    (mounted : ufsInit .host d₀ 0 dirtyInodeBp dirtyDataBp = .ok u₀)
    (run : Run (logCall .host) (fun s => Removeless s.1) (u₀, []) calls (u, log))
    (synced : u.Synced) (spares : u.SparesLast) (complete : u.Complete) (named : u.NamedByKind log)
    (loaded : Loaded memory d u.disk) (start : d.cursor = 0)
    (mallocs : Run (allocate passes) (fun _ _ => True) h (initSizes u.s ++ List.replicate (treeFiles log 0) 1) h')
    (bufs : Arrays) (junk : Nat → Byte) (con : Console) :
    ∃ v s least, Ramdisk.ufsInit memory (kernelMalloc passes) d h bufs = .ok (v, s) ∧ ∀ fuel, least ≤ fuel →
      ∃ s', printFsContents con (Ramdisk.services passes memory junk v) fuel 0 s = .ok (bootText u.contents log, s') := by
  have plain : Run (withGhost (call .host) fun u c _ log => log ++ added .host u c) (fun s => Removeless s.1)
      (u₀, []) calls (u, log) := run
  obtain ⟨sound, placed, v, e, init, loadedE, of⟩ :=
    kernel_boots small formatted mounted plain.ghostless synced loaded start bufs
  obtain ⟨t, rfl, rep, ordered⟩ := Run.logged (fresh_of_mount small formatted mounted) run
  obtain ⟨h₁, first, rest⟩ := mallocs.split
  have serves := @Loaded.serves passes memory junk v u sound spares of
  have above := t.above_root
  obtain ⟨dense, _⟩ := rep.listed .root rep.root.2 above
  have inner := printEntries_yields rep con serves sound placed complete ordered named [] t.links rfl (n := 0) .root
    rep.root.2 above (k := 2) (Nat.le_refl 2) (by simp [listing]) rfl
  rw [Nat.zero_add] at inner
  obtain ⟨least, prints⟩ := printFsContents_yields con serves sound placed rep.root.1 dense rfl rfl inner
  refine ⟨v, (e, h₁), least, ufsInit_kernelInit init (of.s ▸ first), fun fuel enough => ?_⟩
  obtain ⟨s', printed, _⟩ := prints fuel enough (e, h₁) ⟨loadedE, h', rest⟩
  exact ⟨s', printed⟩

/- The host makes a directory and a file in it, which the kernel prints. -/
theorem boot_prints_tree_smallest :
    let con : Console := ⟨fun _ _ _ _ _ => .error .argument, fun _ => 0, fun _ => 0⟩
    ∃ u start v s least, Run (logCall .host) (fun s => Removeless s.1) (smallest, [])
        [.creat 0 0 (letter 100 (by decide)) zeros, .creat 1 1 (letter 97 (by decide)) zeros]
        (u, [⟨0, [100], 1⟩, ⟨1, [97], 2⟩]) ∧
      initPaging 4097 (bootMm ramdisk.endAddr) = some (.exit start) ∧
      Ramdisk.ufsInit (memoryOf u.disk) (kernelMalloc 2) ramdisk ⟨start, []⟩ zeroArrays = .ok (v, s) ∧
      ∀ fuel, least ≤ fuel → ∃ s', printFsContents con (Ramdisk.services 2 (memoryOf u.disk) (fun _ => 0) v) fuel 0 s =
        .ok (bootText u.contents [⟨0, [100], 1⟩, ⟨1, [97], 2⟩], s') := by
  intro con
  have check : (ufsCreat .host smallest 0 0 (letter 100 (by decide)) zeros >>= fun first =>
      (ufsCreat .host first.2 1 1 (letter 97 (by decide)) zeros).map fun out =>
        ((first.1, emptyPosInode first.2, (first.2.inodes 1).size), (out.1, (out.2.inodes 1).type, (out.2.inodes 2).type),
          getBitmap out.2.dataBp ((out.2.s.nd - 1 : Nat) : Int),
          decide (out.2.disk.len = 147456 ∧ initSizes out.2.s = [72, 4, 4, 4, 4, 4096]))) =
        .ok ((.committed, some 2, 64), (.committed, 0, 1), false, true) := by decide +kernel
  obtain ⟨⟨r, x⟩, made, check⟩ := bind_ok.mp check
  obtain ⟨⟨r', u⟩, made', facts⟩ := map_ok.mp check
  simp only [Prod.mk.injEq, decide_eq_true_eq] at facts
  obtain ⟨⟨rfl, next, size⟩, ⟨rfl, directory, file⟩, clear, len, sizes⟩ := facts
  have fresh := smallest_fresh .host
  have returned : call .host smallest (.creat 0 0 (letter 100 (by decide)) zeros) = .ok x := by
    simp only [call, made]
    rfl
  have returned' : call .host x (.creat 1 1 (letter 97 (by decide)) zeros) = .ok u := by
    simp only [call, made']
    rfl
  have link : added .host smallest (.creat 0 0 (letter 100 (by decide)) zeros) = [⟨0, [100], 1⟩] := by
    have found : emptyPosInode smallest = some 1 := by decide +kernel
    simp only [added, made, found]
    rfl
  have link' : added .host x (.creat 1 1 (letter 97 (by decide)) zeros) = [⟨1, [97], 2⟩] := by
    simp only [added, made', next]
    rfl
  have run : Run (logCall .host) (fun s => Removeless s.1) (smallest, [])
      [.creat 0 0 (letter 100 (by decide)) zeros, .creat 1 1 (letter 97 (by decide)) zeros]
      (u, [⟨0, [100], 1⟩, ⟨1, [97], 2⟩]) := by
    refine .cons (t := (x, [⟨0, [100], 1⟩])) trivial ?_ (.cons (t := (u, _)) trivial ?_ (.nil _))
    · rw [logCall, returned, link]
      rfl
    · rw [logCall, returned', link']
      rfl
  have steady := fresh.steady.call returned
  obtain ⟨y, marked, flushed⟩ := commits_flushed steady.sound steady.placed returned' ⟨u, made'⟩
  have synced := flushed.synced (marked.tracked steady.sound steady.tracked)
  have harmless : ∀ (w : Ufs) p type name, Harmless .host w (.creat p type name zeros) := fun _ _ _ _ => trivial
  obtain ⟨_, owned⟩ := Run.owned fresh (.cons (harmless _ 0 0 _) returned (.cons (harmless _ 1 1 _) returned' (.nil u)))
  have appends : Appends .host smallest (.creat 0 0 (letter 100 (by decide)) zeros) :=
    fun _ _ regular => absurd regular (by decide)
  have appends' : Appends .host x (.creat 1 1 (letter 97 (by decide)) zeros) :=
    fun _ _ _ full => absurd (size.symm.trans full) (by decide)
  obtain ⟨_, _, complete⟩ := Run.complete fresh (.cons appends returned (.cons appends' returned' (.nil u)))
  have named : u.NamedByKind [⟨0, [100], 1⟩, ⟨1, [97], 2⟩] := by
    intro l mem
    simp only [List.mem_cons, List.not_mem_nil, or_false] at mem
    rcases mem with rfl | rfl
    · exact directory
    · exact file
  obtain ⟨start, h, booted, mallocs⟩ := @low_mallocs (bootMm ramdisk.endAddr)
    (initSizes u.s ++ List.replicate (treeFiles [⟨0, [100], 1⟩, ⟨1, [97], 2⟩] 0) 1) 2 (fun _ _ _ => rfl)
    (by rw [sizes]; decide +kernel) (by simp [sizes, treeFiles, Libc.ch])
  obtain ⟨v, s, least, init, prints⟩ := boot_prints_tree (by decide) smallest_formatted (smallest_mounted .host) run synced
    (owned.sparesLast clear) complete named (memoryOf_loaded len) rfl mallocs zeroArrays
    (fun _ => 0) con
  exact ⟨u, start, v, s, least, run, booted, init, prints⟩

end Icix
