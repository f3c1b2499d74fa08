/-
  ImportSplit.Proofs.Collecting
  ────────────────────────────────
  **THE FILES THAT ROOTS STAND FOR.**

  A root that is no directory stands for itself; a directory stands for the
  sources below it, except behind directories that are skipped.  What is
  collected is exactly that, each path once and in order:

      lib, lib/dist, ./lib/a.js      ↦      ./lib/a.js, lib/a.js, lib/dist/b.js

  A root itself is never skipped, so `lib/dist` is walked when it is a root.

  Paths are compared by their components.  `pathKey` maps them into a linear
  order, lists of kinds and names, that says what comes before what and which
  paths are the same.  In a linear order a list that increases strictly is known
  by its members, so the order of the roots does not matter.

    • `componentsBefore_iff`, `samePath_iff`, `notBehind_iff` — paths by their keys,
    • `sortedLT_inOrder`, `mem_of_mem_inOrder`, `exists_mem_inOrder` — paths in order,
    • `Entry.mem_sources_iff` — the sources in an entry,
    • `FileTree.collect_exact` — what is collected.
-/
import Mathlib.Data.List.Forall2
import Mathlib.Data.List.Lex
import Mathlib.Data.List.Sort
import Mathlib.Data.Prod.Lex
import Mathlib.Data.String.Basic
import ImportSplit.Files.Collect

namespace ImportSplit.Files

/-! ## §1. Paths in a linear order. -/

/-- A component by its kind, and a name among names. -/
def Component.key : Component → ℕ ×ₗ String
  | root => toLex (0, "")
  | here => toLex (1, "")
  | above => toLex (2, "")
  | name n => toLex (3, n)

theorem Component.key_injective : Function.Injective Component.key := by
  intro a b h
  cases a <;> cases b <;> simp_all [key]

theorem Component.before_iff (a b : Component) : a.before b = true ↔ a.key < b.key := by
  cases a <;> cases b <;> simp [before, rank, key, Prod.Lex.toLex_lt_toLex]

/-- The order of components, place by place. -/
theorem componentsBefore_iff (as bs : List Component) :
    componentsBefore as bs = true ↔ as.map Component.key < bs.map Component.key := by
  induction as generalizing bs with
  | nil => cases bs <;> simp [componentsBefore]
  | cons a as ih =>
      cases bs with
      | nil => simp [componentsBefore]
      | cons b bs =>
          rw [List.map_cons, List.map_cons, List.cons_lt_cons_iff, componentsBefore]
          by_cases hab : a = b
          · subst hab
            simp [ih]
          · have hkey : a.key ≠ b.key := fun h => hab (Component.key_injective h)
            simp [hab, hkey, Component.before_iff]

/-- A path by its components. -/
def pathKey (path : String) : List (ℕ ×ₗ String) := (components path).map Component.key

theorem samePath_iff {a b : String} : samePath a b = true ↔ pathKey a = pathKey b := by
  unfold samePath pathKey
  rw [beq_iff_eq, (List.map_injective_iff.2 Component.key_injective).eq_iff]

theorem notBehind_iff {a b : String} : notBehind a b = true ↔ pathKey a ≤ pathKey b := by
  unfold notBehind
  rw [Bool.not_eq_true', ← Bool.not_eq_true, componentsBefore_iff]
  exact not_lt

/-! ## §2. Sorting paths. -/

/-- The first path stays; of the rest, the first one goes if it is the same. -/
theorem dropRepeated_cons (a : String) (rest : List String) :
    dropRepeated (a :: rest) = a :: dropRepeated rest
        ∧ (∀ b ∈ (dropRepeated rest).head?, pathKey a ≠ pathKey b)
      ∨ ∃ b more, dropRepeated rest = b :: more ∧ pathKey a = pathKey b
        ∧ dropRepeated (a :: rest) = a :: more := by
  cases hrest : dropRepeated rest with
  | nil =>
      refine .inl ⟨?_, fun b hb => by cases hb⟩
      simp only [dropRepeated, hrest]
  | cons b more =>
      by_cases hab : samePath a b = true
      · refine .inr ⟨b, more, rfl, samePath_iff.1 hab, ?_⟩
        simp only [dropRepeated, hrest, if_pos hab]
      · refine .inl ⟨?_, ?_⟩
        · simp only [dropRepeated, hrest, if_neg hab]
        · intro c hc
          obtain rfl : b = c := Option.some.inj hc
          exact fun h => hab (samePath_iff.2 h)

theorem mem_of_mem_dropRepeated {paths : List String} {x : String} (hx : x ∈ dropRepeated paths) :
    x ∈ paths := by
  induction paths with
  | nil => exact hx
  | cons a rest ih =>
      rcases dropRepeated_cons a rest with ⟨hdrop, -⟩ | ⟨b, more, hrest, -, hdrop⟩
      · rw [hdrop] at hx
        rcases List.mem_cons.1 hx with rfl | hx
        · exact List.mem_cons_self
        · exact List.mem_cons_of_mem _ (ih hx)
      · rw [hdrop] at hx
        rcases List.mem_cons.1 hx with rfl | hx
        · exact List.mem_cons_self
        · exact List.mem_cons_of_mem _ (ih (hrest ▸ List.mem_cons_of_mem _ hx))

/-- For each path, one that is the same stays. -/
theorem exists_mem_dropRepeated {paths : List String} {x : String} (hx : x ∈ paths) :
    ∃ y ∈ dropRepeated paths, pathKey y = pathKey x := by
  induction paths with
  | nil => cases hx
  | cons a rest ih =>
      rcases dropRepeated_cons a rest with ⟨hdrop, -⟩ | ⟨b, more, hrest, hab, hdrop⟩
      · rw [hdrop]
        rcases List.mem_cons.1 hx with rfl | hx
        · exact ⟨x, List.mem_cons_self, rfl⟩
        · obtain ⟨y, hy, hsame⟩ := ih hx
          exact ⟨y, List.mem_cons_of_mem _ hy, hsame⟩
      · rw [hdrop]
        rcases List.mem_cons.1 hx with rfl | hx
        · exact ⟨x, List.mem_cons_self, rfl⟩
        · obtain ⟨y, hy, hsame⟩ := ih hx
          rw [hrest] at hy
          -- the path that goes has the one in front of it in its place
          rcases List.mem_cons.1 hy with rfl | hy
          · exact ⟨a, List.mem_cons_self, hab.trans hsame⟩
          · exact ⟨y, List.mem_cons_of_mem _ hy, hsame⟩

/-- What is in order increases strictly once repeated paths are dropped. -/
theorem pairwise_dropRepeated {paths : List String}
    (h : paths.Pairwise fun a b => pathKey a ≤ pathKey b) :
    (dropRepeated paths).Pairwise fun a b => pathKey a < pathKey b := by
  induction paths with
  | nil => exact .nil
  | cons a rest ih =>
      obtain ⟨hfirst, hrest⟩ := List.pairwise_cons.1 h
      have hstrict := ih hrest
      rcases dropRepeated_cons a rest with ⟨hdrop, hhead⟩ | ⟨b, more, hsame, hab, hdrop⟩
      · rw [hdrop, List.pairwise_cons]
        refine ⟨fun x hx => ?_, hstrict⟩
        cases hsplit : dropRepeated rest with
        | nil =>
            rw [hsplit] at hx
            cases hx
        | cons b more =>
            rw [hsplit] at hx hhead hstrict
            have hb : b ∈ dropRepeated rest := hsplit ▸ List.mem_cons_self
            have hab : pathKey a < pathKey b :=
              lt_of_le_of_ne (hfirst b (mem_of_mem_dropRepeated hb)) (hhead b rfl)
            rcases List.mem_cons.1 hx with rfl | hx
            · exact hab
            · exact hab.trans ((List.pairwise_cons.1 hstrict).1 x hx)
      · rw [hsame, List.pairwise_cons] at hstrict
        rw [hdrop, List.pairwise_cons, hab]
        exact hstrict

/-- **Paths in order increase strictly.** -/
theorem sortedLT_inOrder (paths : List String) : ((inOrder paths).map pathKey).SortedLT := by
  have hsorted : (paths.mergeSort notBehind).Pairwise fun a b => pathKey a ≤ pathKey b := by
    refine (List.pairwise_mergeSort ?_ ?_ paths).imp notBehind_iff.1
    · intro a b c hab hbc
      exact notBehind_iff.2 ((notBehind_iff.1 hab).trans (notBehind_iff.1 hbc))
    · intro a b
      rw [Bool.or_eq_true, notBehind_iff, notBehind_iff]
      exact le_total _ _
  exact (List.pairwise_map.2 (pairwise_dropRepeated hsorted)).sortedLT

theorem mem_of_mem_inOrder {paths : List String} {x : String} (hx : x ∈ inOrder paths) :
    x ∈ paths :=
  List.mem_mergeSort.1 (mem_of_mem_dropRepeated hx)

theorem exists_mem_inOrder {paths : List String} {x : String} (hx : x ∈ paths) :
    ∃ y ∈ inOrder paths, pathKey y = pathKey x :=
  exists_mem_dropRepeated (List.mem_mergeSort.2 hx)

/-- Paths that have the same members are in the same order. -/
theorem map_inOrder_congr {paths paths' : List String} (h : ∀ x, x ∈ paths' ↔ x ∈ paths) :
    (inOrder paths').map pathKey = (inOrder paths).map pathKey := by
  have hkeys : ∀ paths key, key ∈ (inOrder paths).map pathKey ↔ key ∈ paths.map pathKey := by
    intro paths key
    rw [List.mem_map, List.mem_map]
    constructor
    · rintro ⟨x, hx, rfl⟩
      exact ⟨x, mem_of_mem_inOrder hx, rfl⟩
    · rintro ⟨x, hx, rfl⟩
      exact exists_mem_inOrder hx
  refine (sortedLT_inOrder paths').eq_of_mem_iff (sortedLT_inOrder paths) fun key => ?_
  rw [hkeys, hkeys, List.mem_map, List.mem_map]
  simp only [h]

/-! ## §3. The sources in an entry. -/

/-- The named entries of a directory. -/
def Listing.toList : Listing → List (String × Entry)
  | nil => []
  | cons name entry rest => (name, entry) :: rest.toList

/-- What holds of files, and of a directory if it holds of the entries in it, holds
of every entry. -/
theorem Entry.induction {motive : Entry → Prop} (file : ∀ contents, motive (.file contents))
    (directory : ∀ entries : Listing, (∀ name e, (name, e) ∈ entries.toList → motive e) →
      motive (.directory entries)) (e : Entry) : motive e := by
  apply Entry.rec (motive_1 := motive)
    (motive_2 := fun entries => ∀ name e, (name, e) ∈ entries.toList → motive e)
  · exact file
  · exact directory
  · intro name e h
    cases h
  · intro name entry rest hentry hrest other e h
    rcases List.mem_cons.1 h with h | h
    · obtain ⟨rfl, rfl⟩ := Prod.mk.inj h
      exact hentry
    · exact hrest other e h

/-- A file stands below the entry, behind these names. -/
inductive Entry.HasFile : Entry → List String → Prop
  | here (contents : Contents) : HasFile (.file contents) []
  | behind {entries : Listing} {name : String} {e : Entry} {names : List String}
      (h : (name, e) ∈ entries.toList) (hfile : e.HasFile names) :
      HasFile (.directory entries) (name :: names)

theorem Listing.mem_sources_iff {path p : String} :
    ∀ entries : Listing, p ∈ entries.sources path
      ↔ ∃ name e, (name, e) ∈ entries.toList ∧ p ∈ e.sources (below path name) name
  | .nil => by simp [sources, toList]
  | .cons name entry rest => by
      rw [sources, List.mem_append, mem_sources_iff rest]
      constructor
      · rintro (hp | ⟨other, e, hmem, hp⟩)
        · exact ⟨name, entry, List.mem_cons_self, hp⟩
        · exact ⟨other, e, List.mem_cons_of_mem _ hmem, hp⟩
      · rintro ⟨other, e, hmem, hp⟩
        rcases List.mem_cons.1 hmem with h | hmem
        · obtain ⟨rfl, rfl⟩ := Prod.mk.inj h
          exact .inl hp
        · exact .inr ⟨other, e, hmem, hp⟩

/-- No directory on the way along the names is skipped. -/
def Passable (names : List String) : Prop := ∀ name ∈ names.dropLast, name ∉ skippedDirectories

theorem passable_cons_cons {first second : String} {names : List String} :
    Passable (first :: second :: names)
      ↔ first ∉ skippedDirectories ∧ Passable (second :: names) := by
  unfold Passable
  rw [List.dropLast_cons_of_ne_nil (List.cons_ne_nil _ _), List.forall_mem_cons]

/-- **The sources in an entry** are the files below it that have the extension of a
dialect and no skipped directory on the way, the entry itself included. -/
theorem Entry.mem_sources_iff (e : Entry) {path name p : String} :
    p ∈ e.sources path name
      ↔ ∃ names, e.HasFile names ∧ Passable (name :: names) ∧ p = names.foldl below path
        ∧ (dialect? p).isSome := by
  induction e using Entry.induction generalizing path name with
  | file contents =>
      rw [sources]
      constructor
      · intro hp
        split at hp
        · next hdialect =>
            obtain rfl := List.mem_singleton.1 hp
            have hpass : Passable [name] := fun _ h => absurd h List.not_mem_nil
            exact ⟨[], .here contents, hpass, rfl, hdialect⟩
        · cases hp
      · rintro ⟨names, hfile, -, rfl, hdialect⟩
        cases hfile
        rw [List.foldl_nil] at hdialect ⊢
        rw [if_pos hdialect]
        exact List.mem_singleton_self _
  | directory entries ih =>
      have hskipped : skippedDirectories.contains name = true ↔ name ∈ skippedDirectories :=
        List.contains_iff_mem
      rw [sources]
      constructor
      · intro hp
        split at hp
        · cases hp
        · next hname =>
            obtain ⟨other, e, hmem, hp⟩ := (Listing.mem_sources_iff entries).1 hp
            obtain ⟨names, hfile, hpass, rfl, hdialect⟩ := (ih other e hmem).1 hp
            refine ⟨other :: names, .behind hmem hfile, ?_, rfl, hdialect⟩
            exact passable_cons_cons.2 ⟨fun h => hname (hskipped.2 h), hpass⟩
      · rintro ⟨names, hfile, hpass, rfl, hdialect⟩
        cases hfile with
        | behind hmem hfile =>
            obtain ⟨hname, hpass⟩ := passable_cons_cons.1 hpass
            rw [if_neg fun h => hname (hskipped.1 h)]
            refine (Listing.mem_sources_iff entries).2 ⟨_, _, hmem, ?_⟩
            exact (ih _ _ hmem).2 ⟨_, hfile, hpass, rfl, hdialect⟩

/-! ## §4. What is collected. -/

namespace FileTree

/-- The roots stand for the path: it is one of them and no directory, or that of a
file below one of them with the extension of a dialect, where no directory between
the two is skipped. -/
def Meant (t : FileTree) (roots : List String) (path : String) : Prop :=
  ∃ root ∈ roots, t.isDirectory root = false ∧ path = root
    ∨ ∃ entries names, t.entry? root = some (.directory entries)
      ∧ (Entry.directory entries).HasFile names ∧ Passable names
      ∧ path = names.foldl below root ∧ (dialect? path).isSome

theorem mem_sourcesOf_directory {t : FileTree} {root path : String} {entries : Listing}
    (h : t.entry? root = some (.directory entries)) :
    path ∈ t.sourcesOf root
      ↔ ∃ names, (Entry.directory entries).HasFile names ∧ Passable names
        ∧ path = names.foldl below root ∧ (dialect? path).isSome := by
  unfold sourcesOf
  rw [h, Listing.mem_sources_iff]
  constructor
  · rintro ⟨name, e, hmem, hpath⟩
    obtain ⟨names, hfile, hpass, rfl, hdialect⟩ := (Entry.mem_sources_iff e).1 hpath
    exact ⟨name :: names, .behind hmem hfile, hpass, rfl, hdialect⟩
  · rintro ⟨names, hfile, hpass, rfl, hdialect⟩
    cases hfile with
    | behind hmem hfile =>
        exact ⟨_, _, hmem, (Entry.mem_sources_iff _).2 ⟨_, hfile, hpass, rfl, hdialect⟩⟩

theorem isDirectory_eq_true_iff {t : FileTree} {path : String} :
    t.isDirectory path = true ↔ ∃ entries, t.entry? path = some (.directory entries) := by
  unfold isDirectory
  cases t.entry? path with
  | none => simp
  | some e => cases e <;> simp [Entry.isDirectory]

theorem mem_sourcesOf_of_not_isDirectory {t : FileTree} {root path : String}
    (h : t.isDirectory root = false) : path ∈ t.sourcesOf root ↔ path = root := by
  unfold sourcesOf
  split
  · next entries hentry =>
      rw [isDirectory_eq_true_iff.2 ⟨entries, hentry⟩] at h
      cases h
  · exact List.mem_singleton

/-- Before they are put in order, the paths are those that are meant. -/
theorem mem_flatMap_sourcesOf_iff {t : FileTree} {roots : List String} {path : String} :
    path ∈ roots.flatMap t.sourcesOf ↔ t.Meant roots path := by
  unfold Meant
  rw [List.mem_flatMap]
  refine exists_congr fun root => and_congr_right fun _ => ?_
  cases hdir : t.isDirectory root with
  | false =>
      have hnone : ∀ entries, t.entry? root ≠ some (.directory entries) := fun entries h =>
        absurd (isDirectory_eq_true_iff.2 ⟨entries, h⟩) (by rw [hdir]; exact Bool.false_ne_true)
      simp [mem_sourcesOf_of_not_isDirectory hdir, hnone]
  | true =>
      obtain ⟨entries, hentry⟩ := isDirectory_eq_true_iff.1 hdir
      simp [mem_sourcesOf_directory hentry, hentry]

/-- `lib` with `a.js`, `notes.md`, and `b.js` in `dist`. -/
def libTree : FileTree :=
  let dist : Listing := .cons "b.js" (.file (.text "")) .nil
  let lib : Listing := .cons "a.js" (.file (.text "")) (.cons "notes.md" (.file (.text ""))
    (.cons "dist" (.directory dist) .nil))
  { root := .directory (.cons "lib" (.directory lib) .nil) }

example : ["./lib/a.js", "lib", "lib/dist"].map libTree.sourcesOf
    = [["./lib/a.js"], ["lib/a.js"], ["lib/dist/b.js"]] := by
  decide +kernel

/-- **What is collected is exact, in order, and known by the set of the roots.**
The paths increase strictly, component by component.  Each of them is meant, and for
each path that is meant the same path is there.  Roots that are given in another
order, or repeatedly, stand for the same paths. -/
theorem collect_exact (t : FileTree) (roots : List String) :
    ((t.collect roots).Pairwise fun a b =>
        componentsBefore (components a) (components b) = true)
      ∧ (∀ path ∈ t.collect roots, t.Meant roots path)
      ∧ (∀ path, t.Meant roots path → ∃ found ∈ t.collect roots, samePath found path = true)
      ∧ ∀ roots' : List String, (∀ root, root ∈ roots' ↔ root ∈ roots) →
        List.Forall₂ (fun a b => samePath a b = true) (t.collect roots') (t.collect roots) := by
  refine ⟨?_, ?_, ?_, ?_⟩
  · refine (List.pairwise_map.1 (sortedLT_inOrder (roots.flatMap t.sourcesOf)).pairwise).imp ?_
    exact (componentsBefore_iff _ _).2
  · intro path hpath
    exact mem_flatMap_sourcesOf_iff.1 (mem_of_mem_inOrder hpath)
  · intro path hmeant
    obtain ⟨found, hfound, hsame⟩ := exists_mem_inOrder (mem_flatMap_sourcesOf_iff.2 hmeant)
    exact ⟨found, hfound, samePath_iff.2 hsame⟩
  · intro roots' hroots
    have hpaths : ∀ path, path ∈ roots'.flatMap t.sourcesOf ↔ path ∈ roots.flatMap t.sourcesOf := by
      intro path
      simp only [List.mem_flatMap, hroots]
    have hkeys : (t.collect roots').map pathKey = (t.collect roots).map pathKey :=
      map_inOrder_congr hpaths
    have hforall : List.Forall₂ (· = ·)
        ((t.collect roots').map pathKey) ((t.collect roots).map pathKey) := by
      rw [hkeys]
      exact List.forall₂_refl _
    rw [List.forall₂_map_left_iff, List.forall₂_map_right_iff] at hforall
    exact hforall.imp fun _ _ => samePath_iff.2

end FileTree

end ImportSplit.Files
