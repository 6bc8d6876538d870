import Icix.Fs.Hierarchy
import Icix.Fs.Release

/-! ufs_unlink of a directory's last entry. It leaves a dense directory without that
entry, so a directory is a finite map for as long as only last entries are removed. -/
namespace Icix
open Bytes Ownership Trees Runs

/-- The j-th entry of block a has the name. -/
def Named (es : Entries) (name : CString) (a j : Nat) : Prop :=
  j < 128 ∧ ∃ h : 128 * a + j < es.length, es[128 * a + j].1 = name.chars

theorem countP_below (start n m : Nat) :
    (List.range' start n).countP (fun j => decide (j < m)) = min n (m - start) := by
  induction n generalizing start with
  | zero => rw [Nat.zero_min, List.range'_zero, List.countP_nil]
  | succ n ih =>
    rw [List.range'_succ, List.countP_cons, ih]
    simp only [decide_eq_true_eq]
    split <;> omega

/-- What ufs_unlink's scan finds in a block of a dense directory: an entry with the name where
there is one, and how many of the entries are used. -/
theorem scanBlock_dense {u : Ufs} {p a : Nat} {es : Entries} {name : CString} (dense : u.Dense p es)
    (real : (u.inodes p).ptr a ≠ -1) {out : Option Nat × Nat}
    (returned : scanBlock (u.block p a) name 128 (none, 0) = .ok out) :
    out.2 = min 128 (es.length - 128 * a) ∧ (∀ j, out.1 = some j → Named es name a j) ∧
      (out.1 = none → ∀ j, ¬ Named es name a j) := by
  have more := (dense.ptr a).mp real
  obtain ⟨count, hit, miss⟩ := scanBlock_spec (Nat.le_refl 128) returned
  have used : ∀ j < 128, usedEntry (u.block p a) j = decide (j < es.length - 128 * a) := by
    intro j hj
    refine decide_eq_decide.mpr ?_
    rw [entInum_block hj]
    refine ⟨fun held => ?_, fun inside => (dense.entries _ (by omega)).used.1⟩
    by_contra past
    exact held (dense.unused _ (by omega) (by omega))
  have entry : ∀ j < 128, ∀ inside : 128 * a + j < es.length,
      EntryAt (view (u.block p a) (32 * j)) es[128 * a + j].1 es[128 * a + j].2 :=
    fun j hj inside => (dense.entries _ inside).congr (fun k hk => (block_entry u p a hj hk).symm)
  refine ⟨?_, fun j h => ?_, fun h j ⟨hj, inside, same⟩ => ?_⟩
  · rw [count, List.countP_congr (fun j mem => by rw [used j (by rw [List.mem_range'_1] at mem; omega)])]
    rw [countP_below]
    omega
  · rcases hit j h with before | ⟨_, hj, isUsed, holds⟩
    · cases before
    · rw [used j hj, decide_eq_true_eq] at isUsed
      have inside : 128 * a + j < es.length := by omega
      exact ⟨hj, inside, holds_unique (entry j hj inside).holds holds⟩
  · have here := entry j hj inside
    have short := here.short
    rw [same] at here short
    refine (miss h).2 j (by omega) hj ?_ (by omega) here.holds
    rw [used j hj, decide_eq_true_eq]
    omega

/-- The entry that ufs_unlink has overwritten is unused. -/
theorem entInum_dropped {u w : Ufs} {p a j : Nat} {junk : Nat → Byte} (hj : j < 128)
    (ptr : (w.inodes p).ptr a = (u.inodes p).ptr a)
    (bytes : ∀ x < 4096, w.disk.byte (4096 * ((u.inodes p).ptr a).toNat + x) = blit u.disk.byte
      (4096 * ((u.inodes p).ptr a).toNat + 32 * j) 32 (putWord junk 28 (-1)) (4096 * ((u.inodes p).ptr a).toNat + x)) :
    entInum (w.entry p (128 * a + j)) = -1 := by
  rw [← putWord_word junk 28 (-1)]
  refine word_congr (fun k hk => ?_)
  have block : (32 * (128 * a + j) + (28 + k)) / 4096 = a := by omega
  have rem : (32 * (128 * a + j) + (28 + k)) % 4096 = 32 * j + (28 + k) := by omega
  have addr : 4096 * ((u.inodes p).ptr a).toNat + (32 * j + (28 + k)) =
      4096 * ((u.inodes p).ptr a).toNat + 32 * j + (28 + k) := by omega
  rw [view_apply, Ufs.entry, Ufs.fileByte, block, rem, ptr, bytes _ (by omega), addr]
  exact blit_inside _ _ (by omega)

/-- Directory p had n + 1 entries in u and has lost the last one in w; what is still
held in w is as it was. -/
structure Shortened (u : Ufs) (p n : Nat) (w : Ufs) : Prop where
  size : (w.inodes p).size = BitVec.ofNat 32 (32 * n)
  ptr : ∀ a, (w.inodes p).ptr a ≠ -1 ↔ 128 * a < n
  byte : ∀ q x, w.allocated q → (w.inodes q).ptr (x / 4096) ≠ -1 →
    ¬ (q = p ∧ 32 * n ≤ x ∧ x < 32 * n + 32) → w.fileByte q x = u.fileByte q x
  unused : n % 128 ≠ 0 → entInum (w.entry p n) = -1

theorem Shortened.dense {u w : Ufs} {p : Nat} {es : Entries} {e : List Byte × Nat} (live : w.allocated p)
    (dense : u.Dense p (es ++ [e])) (short : Shortened u p es.length w) : w.Dense p es := by
  have length : (es ++ [e]).length = es.length + 1 := List.length_append
  have le := dense.length_le
  refine ⟨short.size, by omega, short.ptr, fun t h => ?_, fun t low high => ?_⟩
  · have entry := dense.entries t (by omega)
    rw [List.getElem_append_left h] at entry
    exact entry.congr (fun k hk =>
      (short.byte p _ live ((short.ptr ((32 * t + k) / 4096)).mpr (by omega)) (by omega)).symm)
  · by_cases first : t = es.length
    · subst t
      exact short.unused (by omega)
    · rw [← dense.unused t (by omega) (by omega)]
      exact entInum_congr (fun k hk =>
        short.byte p _ live ((short.ptr ((32 * t + k) / 4096)).mpr (by omega)) (by omega))

section Unlink

variable {b : Build} {u w : Ufs} {p inum : Nat} {name : CString} {stk : Stack} {es : Entries}
  (sound : u.Sound b) (owned : u.Owned) (unlinked : Unlinked b u p inum name stk w)
include unlinked

theorem Unlinked.ptr_same {q a : Nat} (real : (w.inodes q).ptr a ≠ -1) :
    (w.inodes q).ptr a = (u.inodes q).ptr a := by
  by_cases same : q = p
  · subst q
    exact unlinked.inodes.2.2.2 a real
  · rw [unlinked.inodes.1 q same]

variable (dense : u.Dense p (es ++ [(name.chars, inum)]))
  (names : ((es ++ [(name.chars, inum)]).map Prod.fst).Nodup)
include dense names

omit unlinked dense in
theorem named_last {a j : Nat} (named : Named (es ++ [(name.chars, inum)]) name a j) : 128 * a + j = es.length := by
  obtain ⟨_, inside, same⟩ := named
  have last : es.length < (es ++ [(name.chars, inum)]).length := by
    rw [List.length_append]
    exact Nat.lt_succ_self _
  refine names_index names inside last ?_
  simp only [same, List.getElem_append_right (Nat.le_refl _), Nat.sub_self, List.getElem_cons_zero]

include sound owned in
/-- Unlinking the name of a dense directory's last entry removes that entry. -/
theorem Unlinked.shortened : Shortened u p es.length w := by
  have live := unlinked.live
  have length : (es ++ [(name.chars, inum)]).length = es.length + 1 := List.length_append
  have le := dense.length_le
  have size : (w.inodes p).size = BitVec.ofNat 32 (32 * es.length) := by
    rw [unlinked.inodes.2.2.1, dense.size, length, Nat.mul_succ, BitVec.ofNat_add]
    exact BitVec.add_sub_cancel _ _
  have outside : ∀ {q x : Nat}, u.allocated q → (u.inodes q).ptr (x / 4096) ≠ -1 →
      ¬ u.s.InMeta (4096 * ((u.inodes q).ptr (x / 4096)).toNat + x % 4096) := by
    intro q x liveQ real
    have range := owned.placed q _ liveQ real
    exact data_outside sound range.1 range.2 (Nat.mod_lt x (Nat.succ_pos 4095))
  cases unlinked.removed with
  | @block a j ha before real scan ptr bits bytes =>
    obtain ⟨count, found, _⟩ := scanBlock_dense dense real scan
    have last := named_last names (found j rfl)
    have more := (dense.ptr a).mp real
    rw [length] at count more
    have first : es.length = 128 * a := by omega
    refine ⟨size, fun c => ?_, fun q x liveQ realQ _ => ?_, fun partly => absurd first (by omega)⟩
    · rw [ptr]
      have old := dense.ptr c
      rw [length] at old
      by_cases same : c = a
      · rw [if_pos same]
        simp only [ne_eq, not_true, false_iff]
        omega
      · rw [if_neg same, old]
        omega
    · have same := unlinked.ptr_same realQ
      rw [Ufs.fileByte, Ufs.fileByte, same]
      exact bytes _ (outside ((unlinked.allocated q).mp liveQ).2 (same ▸ realQ))
  | @entry a j cnt ha before real scan more ptr bits bytes =>
    obtain ⟨count, found, _⟩ := scanBlock_dense dense real scan
    have named := found j rfl
    have last := named_last names named
    have hj := named.1
    rw [length] at count
    have partly : es.length % 128 ≠ 0 := by omega
    have inside : 32 * j + 32 ≤ 4096 := by omega
    have held := Keeps.putHeld owned live real inside (putWord stk.dent 28 (-1))
    refine ⟨size, fun c => ?_, fun q x liveQ realQ apart => ?_, fun _ => ?_⟩
    · rw [ptr, dense.ptr, length]
      omega
    · have same := unlinked.ptr_same realQ
      have liveU := ((unlinked.allocated q).mp liveQ).2
      have kept := held.byte q x liveU (same ▸ realQ) (fun hit => apart ⟨hit.1, by omega, by omega⟩)
      rw [← kept, Ufs.fileByte, same, bytes _ (outside liveU (same ▸ realQ))]
      rfl
    · have range := owned.placed p a live real
      rw [← last]
      exact entInum_dropped hj (ptr a) (fun x hx => bytes _ (data_outside sound range.1 range.2 hx))
  | nowhere missing ptr bits bytes =>
    have real : (u.inodes p).ptr (es.length / 128) ≠ -1 := (dense.ptr _).mpr (by omega)
    obtain ⟨cnt, scan⟩ := missing _ (by omega) real
    obtain ⟨_, _, none⟩ := scanBlock_dense dense real scan
    refine absurd ?_ (none rfl (es.length % 128))
    have index : 128 * (es.length / 128) + es.length % 128 = es.length := by omega
    refine ⟨by omega, by omega, ?_⟩
    simp only [index, List.getElem_append_right (Nat.le_refl _), Nat.sub_self, List.getElem_cons_zero]

end Unlink

/-- A last entry that is neither "." nor ".." is that of the last child. -/
theorem last_child {t : Dirs} {p : Nat} {e : List Byte × Nat} (last : (Dirs.entries t p).getLast? = some e)
    (notDot : e.1 ≠ [46]) (notDotdot : e.1 ≠ [46, 46]) : ∃ cs, t.children p = cs ++ [e] := by
  unfold Dirs.entries at last
  rcases List.eq_nil_or_concat (t.children p) with none | ⟨cs, x, split⟩
  · rw [none, List.append_nil] at last
    unfold Dirs.dots at last
    split at last
    · cases Option.some.inj last
      exact absurd rfl notDotdot
    · cases last
  · rw [List.concat_eq_append] at split
    rw [split, ← List.append_assoc, List.getLast?_concat] at last
    cases Option.some.inj last
    exact ⟨cs, split⟩

/-- The entries after the link of a directory's last child has been removed. -/
theorem entries_erase {t : Dirs} {p i : Nat} {name : List Byte} {cs : Entries} (hp : p ≠ i)
    (leaf : t.children i = []) (last : t.children p = cs ++ [(name, i)]) (q : Nat) :
    Dirs.entries (t.erase ⟨p, name, i⟩) q =
      if q = i then [] else if q = p then Dirs.dots t p ++ cs else Dirs.entries t q := by
  have mem : ⟨p, name, i⟩ ∈ t.links :=
    Tree.mem_children.mp (last ▸ List.mem_append_right _ (List.mem_singleton.mpr rfl))
  unfold Dirs.entries Dirs.dots
  by_cases gone : q = i
  · subst q
    rw [if_pos rfl, Tree.above_erase_self mem, Tree.children_erase_other (Ne.symm hp), leaf]
    rfl
  · rw [if_neg gone, Tree.above_erase gone]
    by_cases parent : q = p
    · subst q
      rw [if_pos rfl, Tree.children_erase_last (l := ⟨p, name, i⟩) last]
    · rw [if_neg parent, Tree.children_erase_other parent]

/-- A directory that lookups and creations return in. -/
structure Ufs.Working (u : Ufs) (p : Nat) : Prop where
  live : u.allocated p
  dir : (u.inodes p).type = ufsDirectory
  notBlank : ¬ u.Blank p

theorem Ufs.Working.dense {u : Ufs} {t : Dirs} {p : Nat} (working : u.Working p) (rep : u.Represents t) :
    u.Dense p (Dirs.entries t p) :=
  (rep.dirs p working.live working.dir).resolve_right (fun bare => working.notBlank bare.1)

theorem Ufs.Dense.notBlank {u : Ufs} {p : Nat} {es : Entries} (dense : u.Dense p es) : ¬ u.Blank p := by
  rintro ⟨empty, size⟩
  have none : es.length = 0 := by
    by_contra more
    exact (dense.ptr 0).mpr (by omega) (empty 0)
  rw [dense.size, none] at size
  exact size rfl

theorem Ufs.Working.same {u w : Ufs} {p : Nat} (working : u.Working p) (live : w.allocated p)
    (inode : w.inodes p = u.inodes p) : w.Working p := by
  refine ⟨live, inode ▸ working.dir, ?_⟩
  rw [Ufs.Blank, inode]
  exact working.notBlank

/-- The name is that of the directory's last entry. -/
def Ufs.LastNamed (u : Ufs) (p : Nat) (name : CString) : Prop :=
  Holds (u.entry p ((u.inodes p).size.toNat / 32 - 1)) name.chars

theorem Unlinked.type {b : Build} {u w : Ufs} {p inum : Nat} {name : CString} {stk : Stack}
    (unlinked : Unlinked b u p inum name stk w) (q : Nat) : (w.inodes q).type = (u.inodes q).type := by
  by_cases parent : q = p
  · rw [parent, unlinked.inodes.2.1]
  · rw [unlinked.inodes.1 q parent]

/-- The name of a directory's last entry is that of its last child. -/
theorem Ufs.Represents.lastChild {b : Build} {u : Ufs} {t : Dirs} {p inum : Nat} {name : CString} (rep : u.Represents t)
    (sound : u.Sound b) (placed : u.Placed) (live : u.allocated p) (dir : (u.inodes p).type = ufsDirectory)
    (dense : u.Dense p (Dirs.entries t p)) (found : ufsLookup b u p name = .ok inum) (notDot : name.chars ≠ [46])
    (notDotdot : name.chars ≠ [46, 46]) (last : u.LastNamed p name) :
    ∃ cs, t.children p = cs ++ [(name.chars, inum)] := by
  have lookup := ufsLookup_dense name sound placed live dense dir
  rw [found] at lookup
  cases bound : (Dirs.entries t p).lookup name.chars with
  | none =>
    rw [bound] at lookup
    exact absurd (Except.ok.inj lookup) (by omega)
  | some i =>
    rw [bound] at lookup
    have same : inum = i := by
      have equal := Except.ok.inj lookup
      omega
    have more : 0 < (Dirs.entries t p).length := by
      refine List.length_pos_of_ne_nil (fun none => ?_)
      rw [none] at bound
      cases bound
    have final : (Dirs.entries t p).length - 1 < (Dirs.entries t p).length := by omega
    have entry := dense.entries _ final
    have index : (u.inodes p).size.toNat / 32 - 1 = (Dirs.entries t p).length - 1 := by
      rw [dense.packed.slots, Nat.mul_div_cancel_left _ (Nat.succ_pos 31)]
    rw [Ufs.LastNamed, index] at last
    have first := holds_unique entry.holds last
    have second := lookup_of_mem (rep.names p) (List.getElem_mem final)
    rw [first, bound] at second
    refine last_child ?_ notDot notDotdot
    rw [List.getLast?_eq_getElem?, List.getElem?_eq_getElem final, ← first, same, Option.some.inj second]

/-- A directory that is removed has two entries, and these are "." and "..". -/
theorem Ufs.Represents.childless {u : Ufs} {t : Dirs} {p inum : Nat} {name : List Byte} (rep : u.Represents t)
    (mem : ⟨p, name, inum⟩ ∈ t.links) (empty : (u.inodes inum).type = ufsDirectory → (u.inodes inum).size = 64) :
    t.children inum = [] := by
  refine List.eq_nil_iff_forall_not_mem.mpr (fun ⟨n, i⟩ child => ?_)
  have dir := (rep.live _ (Tree.mem_children.mp child)).2.1
  have above := Tree.above_of_mem mem
  have dense := (rep.dirs inum (rep.live _ mem).2.2 dir).resolve_right (fun bare => by
    rw [bare.2] at above
    cases above)
  have slots := dense.packed.slots
  have two : (64 : Word).toNat = 64 := by decide
  rw [empty dir, two, Dirs.entries, Dirs.dots, above, List.length_append] at slots
  have positive := List.length_pos_of_mem child
  simp only [List.length_cons, List.length_nil] at slots
  omega

/-- The tree without the link of a last child, after that has been unlinked. -/
theorem Ufs.Represents.erased {b : Build} {u w : Ufs} {t : Dirs} {p inum : Nat} {name : CString} {stk : Stack}
    {cs : Entries} (rep : u.Represents t) (unlinked : Unlinked b u p inum name stk w) (hp : p ≠ inum)
    (leaf : t.children inum = []) (split : t.children p = cs ++ [(name.chars, inum)])
    (short : Shortened u p (Dirs.dots t p ++ cs).length w) (dense : w.Dense p (Dirs.dots t p ++ cs)) :
    w.Represents (t.erase ⟨p, name.chars, inum⟩) := by
  have mem : ⟨p, name.chars, inum⟩ ∈ t.links :=
    Tree.mem_children.mp (split ▸ List.mem_append_right _ (List.mem_singleton.mpr rfl))
  have erased := entries_erase hp leaf split
  have type := unlinked.type
  refine ⟨⟨(unlinked.allocated 0).mpr ⟨Ne.symm (t.below _ mem), rep.root.1⟩, (type 0).trans rep.root.2⟩,
    fun l left => ?_, fun q liveQ dirQ => ?_, fun q => ?_⟩
  · obtain ⟨other, old⟩ := Tree.mem_erase.mp left
    obtain ⟨dirLive, dirType, nodeLive⟩ := rep.live l old
    refine ⟨(unlinked.allocated _).mpr ⟨fun same => ?_, dirLive⟩, (type _).trans dirType,
      (unlinked.allocated _).mpr ⟨fun same => ?_, nodeLive⟩⟩
    · have child : (l.name, l.node) ∈ t.children inum := Tree.mem_children.mpr (same ▸ old)
      rw [leaf] at child
      cases child
    · exact other (List.inj_on_of_nodup_map t.nodes old mem same)
  · obtain ⟨gone, liveU⟩ := (unlinked.allocated q).mp liveQ
    rw [erased, if_neg gone]
    by_cases parent : q = p
    · subst q
      rw [if_pos rfl]
      exact Or.inl dense
    · have inode := unlinked.inodes.1 q parent
      rw [if_neg parent, Tree.above_erase gone]
      rcases rep.dirs q liveU (inode ▸ dirQ) with denseQ | ⟨blank, bare⟩
      · exact Or.inl (denseQ.congr inode (fun x real =>
          short.byte q x liveQ (inode.symm ▸ real) (fun hit => parent hit.1)))
      · refine Or.inr ⟨?_, bare⟩
        rw [Ufs.Blank, inode]
        exact blank
  · have names := rep.names p
    rw [Dirs.entries, split, ← List.append_assoc] at names
    rw [erased]
    split
    · exact List.nodup_nil
    · split
      · rw [List.map_append] at names
        exact (List.nodup_append.mp names).1
      · exact rep.names q

/-- What unlinking a last entry does to the tree, and to the parent's entries. -/
theorem Ufs.Represents.removed {b : Build} {u w : Ufs} {t : Dirs} {pinum : Int} {inum : Nat} {name : CString}
    {stk : Stack} (rep : u.Represents t) (sound : u.Sound b) (owned : u.Owned)
    (removable : u.Removable b pinum name inum) (last : u.LastNamed pinum.toNat name)
    (unlinked : Unlinked b u pinum.toNat inum name stk w) :
    ∃ es, Dirs.entries t pinum.toNat = es ++ [(name.chars, inum)] ∧ u.Dense pinum.toNat (es ++ [(name.chars, inum)]) ∧
      w.Dense pinum.toNat es ∧ w.Working pinum.toNat ∧
      w.Represents (t.erase ⟨pinum.toNat, name.chars, inum⟩) := by
  have found := unlinked.found
  have live := unlinked.live
  have dir : (u.inodes pinum.toNat).type = ufsDirectory := (lookup_ok removable.found).1
  generalize pinum.toNat = p at *
  have dense : u.Dense p (Dirs.entries t p) := by
    refine (rep.dirs p live dir).resolve_right (fun ⟨blank, _⟩ => ?_)
    obtain ⟨message, fault⟩ := blank.lookup sound live dir name
    rw [fault] at found
    cases found
  obtain ⟨cs, split⟩ :=
    rep.lastChild sound owned.placed live dir dense found removable.notDot removable.notDotdot last
  have mem : ⟨p, name.chars, inum⟩ ∈ t.links :=
    Tree.mem_children.mp (split ▸ List.mem_append_right _ (List.mem_singleton.mpr rfl))
  have leaf := rep.childless mem removable.empty
  have hp : p ≠ inum := by
    rintro rfl
    rw [leaf] at split
    exact absurd split (by simp)
  have names := rep.names p
  have entries : Dirs.entries t p = Dirs.dots t p ++ cs ++ [(name.chars, inum)] := by
    rw [Dirs.entries, split, List.append_assoc]
  rw [entries] at dense names
  have short := unlinked.shortened sound owned dense names
  have liveW := (unlinked.allocated p).mpr ⟨hp, live⟩
  have denseW := short.dense liveW dense
  exact ⟨Dirs.dots t p ++ cs, entries, dense, denseW, ⟨liveW, (unlinked.type p).trans dir, denseW.notBlank⟩,
    rep.erased unlinked hp leaf split short denseW⟩

/-- Creations store all of their names; removals free no live block and take the last
entry of their directory. -/
def Orderly (b : Build) (u : Ufs) : Call → Prop
  | .creat _ _ name stk => Stored b name stk
  | .unlink pinum name stk => Harmless b u (.unlink pinum name stk) ∧
      ∀ inum, u.Removable b pinum name inum → u.LastNamed pinum.toNat name
  | _ => True

/-- The call does not remove inode p. -/
def Spares (b : Build) (p : Nat) (u : Ufs) : Call → Prop
  | .unlink pinum name _ => ufsLookup b u pinum name ≠ .ok p
  | _ => True

section Step

variable {b : Build} {u w : Ufs} {t : Dirs} {c : Call} (tidy : u.Tidy b t) (orderly : Orderly b u c)
  (returned : call b u c = .ok w)
include tidy orderly returned

/-- An orderly call leaves a tree. -/
theorem Ufs.Tidy.step : ∃ t', w.Tidy b t' := by
  have effect := call_effect tidy.sound tidy.owned.placed returned
  have sound := effect.sound tidy.sound tidy.owned.placed
  cases c with
  | creat pinum type name stk =>
    obtain ⟨⟨r, v⟩, run, last⟩ := Runs.bind_ok.mp returned
    cases Except.ok.inj last
    obtain ⟨t', _, tidy', _⟩ := tidy.creat orderly run
    exact ⟨t', tidy'⟩
  | write inum buf offset nbytes =>
    obtain ⟨⟨r, v⟩, run, last⟩ := Runs.bind_ok.mp returned
    cases Except.ok.inj last
    exact ⟨t, (tidy.write run).1⟩
  | read =>
    cases effect
    exact ⟨t, tidy⟩
  | lookup =>
    cases effect
    exact ⟨t, tidy⟩
  | unlink pinum name stk =>
    have owned := effect.owned tidy.sound tidy.owned orderly.1
    cases effect with
    | none => exact ⟨t, tidy⟩
    | unlink removable unlinked =>
      obtain ⟨_, _, _, _, _, rep⟩ :=
        tidy.represents.removed tidy.sound tidy.owned removable (orderly.2 _ removable) unlinked
      exact ⟨_, sound, owned, rep⟩

/-- It leaves every directory working, but for one that it removes. -/
theorem Ufs.Working.step {p : Nat} (working : u.Working p) (spares : Spares b p u c) : w.Working p := by
  have sound := tidy.sound
  have owned := tidy.owned
  have live := working.live
  have dense := working.dense tidy.represents
  cases call_effect sound owned.placed returned with
  | none => exact working
  | @creat pinum type name stk inum r w creatable created =>
    obtain ⟨hi, clear⟩ := emptyPosInode_some creatable.found
    have liveW := (created.allocated hi p).mpr (Or.inr live)
    by_cases parent : p = pinum.toNat
    · subst parent
      cases r with
      | failed => exact working.same liveW (@Created.failed _ _ _ _ _ _ _ _ (fun _ _ => False) live hi clear created).2.1
      | committed =>
        obtain ⟨_, _, ⟨_, _, ext⟩, _⟩ := created.extends sound owned live hi clear dense.packed
        refine ⟨liveW, (created.parent_type live clear).trans working.dir, fun blank => ?_⟩
        exact (ext.ptr 0).mpr (Nat.succ_pos _) (blank.1 0)
    · exact working.same liveW (created.other (claimed_ne live clear) parent)
  | @write inum offset nbytes r buf w writable wrote =>
    obtain ⟨cur, writing⟩ : ∃ cur, Writing u inum.toNat buf offset.toNat cur w := by
      cases wrote with
      | all writing => exact ⟨_, writing⟩
      | full writing => exact ⟨_, writing⟩
    refine working.same ((writing.allocated p).mpr live) (writing.other p ?_)
    rintro rfl
    have regular := writable.regular
    rw [working.dir] at regular
    cases regular
  | @unlink pinum name stk inum w removable unlinked =>
    have other : p ≠ inum := by
      rintro rfl
      exact spares removable.found
    have liveW := (unlinked.allocated p).mpr ⟨other, live⟩
    by_cases parent : p = pinum.toNat
    · subst parent
      obtain ⟨_, _, _, _, workingW, _⟩ :=
        tidy.represents.removed sound owned removable (orderly.2 _ removable) unlinked
      exact workingW
    · exact working.same liveW (unlinked.inodes.1 p parent)

end Step

end Icix
