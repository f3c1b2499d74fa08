/-
  ImportSplit.Proofs.WatchLists
  ────────────────────────────────
  **WHAT A LIST OF ENTRIES WATCHES.**

  An entry stands for itself without the white space around it, and for nothing
  if only white space is in it.  A list of entries stands for exactly one watch
  list (`ofNames_eq_iff`): its names are those that the entries stand for, each
  once, and in the order in which they come first:

      " b", "a", "", "b "      stand for      b, a

  So the names of a watch list stand for itself, and what is watched is known by
  the set of the entries (`ofNames_canonical`).
-/
import Mathlib.Data.List.DropRight
import Mathlib.Data.List.Sort
import ImportSplit.Settings

namespace ImportSplit

/-! ## §1. White space around a text. -/

namespace Text

/-- The second text is the first one without the white space around it. -/
structure Trims (s core : List Char) : Prop where
  around : ∃ before after, s = before ++ core ++ after
    ∧ (∀ c ∈ before, isWhite c = true) ∧ ∀ c ∈ after, isWhite c = true
  first : ∀ c ∈ core.head?, isWhite c = false
  last : ∀ c ∈ core.getLast?, isWhite c = false

theorem trims_trim (s : List Char) : Trims s (trim s) := by
  have htrim : trim s = (s.dropWhile isWhite).rdropWhile isWhite := rfl
  refine ⟨⟨s.takeWhile isWhite, (s.dropWhile isWhite).rtakeWhile isWhite, ?_, ?_, ?_⟩, ?_, ?_⟩
  · rw [htrim, List.append_assoc, List.rdropWhile_append_rtakeWhile, List.takeWhile_append_dropWhile]
  · exact fun c hc => List.mem_takeWhile_imp hc
  · exact fun c hc => List.mem_rtakeWhile_imp hc
  · -- it is also the first character behind the white space at the start
    intro c hc
    obtain ⟨more, hmore⟩ : trim s <+: s.dropWhile isWhite := List.rdropWhile_prefix isWhite _
    refine head?_dropWhile isWhite s c ?_
    rw [← hmore, List.head?_append, Option.mem_def.1 hc]
    rfl
  · intro c hc
    unfold trim at hc
    rw [List.getLast?_reverse] at hc
    exact head?_dropWhile isWhite _ c hc

theorem trim_eq_of_trims {s core : List Char} (h : Trims s core) : trim s = core := by
  obtain ⟨⟨before, after, rfl, hbefore, hafter⟩, hfirst, hlast⟩ := h
  have hreverse : (after.reverse ++ core.reverse).dropWhile isWhite = core.reverse := by
    refine dropWhile_append (fun c hc => hafter c (List.mem_reverse.1 hc)) ?_
    rwa [List.head?_reverse]
  unfold trim
  cases core with
  | nil =>
      -- nothing but white space is there
      have hall : ∀ c ∈ before ++ [] ++ after, isWhite c = true := by
        intro c hc
        rw [List.append_nil, List.mem_append] at hc
        exact hc.elim (hbefore c) (hafter c)
      rw [List.dropWhile_eq_nil_iff.2 hall]
      rfl
  | cons c core =>
      rw [List.append_assoc, dropWhile_append hbefore (by simpa using hfirst),
        List.reverse_append, hreverse, List.reverse_reverse]

/-- **A text has one trimmed form.** -/
theorem trim_eq_iff {s core : List Char} : trim s = core ↔ Trims s core :=
  ⟨fun h => h ▸ trims_trim s, trim_eq_of_trims⟩

end Text

namespace WatchList

/-! ## §2. The names that entries stand for. -/

/-- The name that an entry stands for, if it is not empty. -/
def nameOf (entry : String) : String := String.ofList (Text.trim entry.toList)

theorem nameOf_eq_iff {entry name : String} :
    nameOf entry = name ↔ Text.Trims entry.toList name.toList := by
  rw [← Text.trim_eq_iff, ← String.toList_inj, nameOf, String.toList_ofList]

theorem canonical_concat (entries : List String) (entry : String) :
    canonical (entries ++ [entry]) = canonical.add (canonical entries) entry :=
  List.foldl_concat _ _ _ _

/-- An entry adds the name that it stands for, unless that is empty or there. -/
theorem add_spec (names : List String) (entry : String) :
    (nameOf entry = "" ∨ nameOf entry ∈ names) ∧ canonical.add names entry = names
      ∨ nameOf entry ≠ "" ∧ nameOf entry ∉ names
        ∧ canonical.add names entry = names ++ [nameOf entry] := by
  have hadd : canonical.add names entry
      = if (nameOf entry).isEmpty || names.contains (nameOf entry) then names
        else names ++ [nameOf entry] := rfl
  have hcond : ((nameOf entry).isEmpty || names.contains (nameOf entry)) = true
      ↔ nameOf entry = "" ∨ nameOf entry ∈ names := by
    rw [Bool.or_eq_true, String.isEmpty_iff, List.contains_iff_mem]
  by_cases h : nameOf entry = "" ∨ nameOf entry ∈ names
  · exact .inl ⟨h, by rw [hadd, if_pos (hcond.2 h)]⟩
  · refine .inr ⟨fun he => h (.inl he), fun he => h (.inr he), ?_⟩
    rw [hadd, if_neg (mt hcond.1 h)]

theorem mem_canonical_iff {entries : List String} {name : String} :
    name ∈ canonical entries ↔ name ≠ "" ∧ name ∈ entries.map nameOf := by
  induction entries using List.reverseRecOn with
  | nil => simp [canonical]
  | append_singleton entries entry ih =>
      rw [canonical_concat, List.map_append, List.mem_append, List.map_singleton, List.mem_singleton]
      rcases add_spec (canonical entries) entry with ⟨hold, hadd⟩ | ⟨hne, -, hadd⟩
      · rw [hadd, ih]
        constructor
        · exact fun ⟨hname, hmem⟩ => ⟨hname, .inl hmem⟩
        · rintro ⟨hname, hmem | rfl⟩
          · exact ⟨hname, hmem⟩
          · exact ih.1 (hold.resolve_left hname)
      · rw [hadd, List.mem_append, List.mem_singleton, ih]
        constructor
        · rintro (⟨hname, hmem⟩ | rfl)
          · exact ⟨hname, .inl hmem⟩
          · exact ⟨hne, .inr rfl⟩
        · rintro ⟨hname, hmem | rfl⟩
          · exact .inl ⟨hname, hmem⟩
          · exact .inr rfl

/-- The first name comes first in the list of names with repetitions. -/
def ComesBefore (names : List String) (a b : String) : Prop := names.idxOf a < names.idxOf b

theorem pairwise_canonical (entries : List String) :
    (canonical entries).Pairwise (ComesBefore (entries.map nameOf)) := by
  induction entries using List.reverseRecOn with
  | nil => exact .nil
  | append_singleton entries entry ih =>
      have hplace : ∀ a ∈ canonical entries,
          ((entries ++ [entry]).map nameOf).idxOf a = (entries.map nameOf).idxOf a := by
        intro a ha
        rw [List.map_append]
        exact List.idxOf_append_of_mem (mem_canonical_iff.1 ha).2
      -- the names that were there keep their places
      have hold : (canonical entries).Pairwise (ComesBefore ((entries ++ [entry]).map nameOf)) := by
        refine ih.imp_of_mem fun ha hb hab => ?_
        unfold ComesBefore
        rw [hplace _ ha, hplace _ hb]
        exact hab
      rw [canonical_concat]
      rcases add_spec (canonical entries) entry with ⟨-, hadd⟩ | ⟨hne, hnew, hadd⟩
      · rw [hadd]
        exact hold
      · rw [hadd, List.pairwise_append]
        refine ⟨hold, List.pairwise_singleton _ _, fun a ha b hb => ?_⟩
        obtain rfl := List.mem_singleton.1 hb
        have hlast : nameOf entry ∉ entries.map nameOf := fun hmem =>
          hnew (mem_canonical_iff.2 ⟨hne, hmem⟩)
        unfold ComesBefore
        rw [hplace a ha, List.map_append, List.idxOf_append_of_notMem hlast]
        exact Nat.lt_add_right _ (List.idxOf_lt_length_of_mem (mem_canonical_iff.1 ha).2)

/-! ## §3. The watch list of a list of entries. -/

/-- The entries stand for the watch list: its names are those that they stand for,
each once, and the one that comes first among the entries is first. -/
structure StandsFor (entries : List String) (w : WatchList) : Prop where
  mem_iff : ∀ name, name ∈ w.names
    ↔ name ≠ "" ∧ ∃ entry ∈ entries, Text.Trims entry.toList name.toList
  nodup : w.names.Nodup
  inOrder : w.names.Pairwise (ComesBefore (entries.map nameOf))

theorem mem_ofNames_iff {entries : List String} {name : String} :
    name ∈ (ofNames entries).names
      ↔ name ≠ "" ∧ ∃ entry ∈ entries, Text.Trims entry.toList name.toList := by
  simp only [ofNames, mem_canonical_iff, List.mem_map, nameOf_eq_iff]

theorem standsFor_ofNames (entries : List String) : StandsFor entries (ofNames entries) :=
  { mem_iff := fun _ => mem_ofNames_iff
    nodup := (pairwise_canonical entries).imp fun hab heq => by
      rw [heq] at hab
      exact Nat.lt_irrefl _ hab
    inOrder := pairwise_canonical entries }

/-- **Entries stand for one watch list.** -/
theorem ofNames_eq_iff {entries : List String} {w : WatchList} :
    ofNames entries = w ↔ StandsFor entries w := by
  refine ⟨fun h => h ▸ standsFor_ofNames entries, fun h => ?_⟩
  have hown := standsFor_ofNames entries
  have hperm : (ofNames entries).names.Perm w.names :=
    (List.perm_ext_iff_of_nodup hown.nodup h.nodup).2 fun name =>
      (hown.mem_iff name).trans (h.mem_iff name).symm
  have hnames : (ofNames entries).names = w.names :=
    hperm.eq_of_pairwise (fun a b _ _ hab hba => absurd hba (Nat.lt_asymm hab))
      hown.inOrder h.inOrder
  exact congrArg WatchList.mk hnames

example : (ofNames [" b", "a", "", "b\u00a0"]).names = ["b", "a"] := by decide +kernel

theorem nameOf_of_mem {entries : List String} {name : String} (h : name ∈ (ofNames entries).names) :
    nameOf name = name := by
  obtain ⟨-, entry, -, htrims⟩ := mem_ofNames_iff.1 h
  -- no white space is left around it
  exact nameOf_eq_iff.2 ⟨⟨[], [], by simp, by simp, by simp⟩, htrims.first, htrims.last⟩

/-- The names of a watch list stand for it. -/
theorem standsFor_names (entries : List String) :
    StandsFor (ofNames entries).names (ofNames entries) := by
  have hnodup := (standsFor_ofNames entries).nodup
  have hmap : (ofNames entries).names.map nameOf = (ofNames entries).names :=
    List.map_congr_left (fun _ h => nameOf_of_mem h) |>.trans (List.map_id _)
  refine ⟨fun name => ?_, hnodup, ?_⟩
  · constructor
    · intro h
      exact ⟨(mem_ofNames_iff.1 h).1, name, h, nameOf_eq_iff.1 (nameOf_of_mem h)⟩
    · rintro ⟨-, entry, hentry, htrims⟩
      rw [← nameOf_eq_iff, nameOf_of_mem hentry] at htrims
      exact htrims ▸ hentry
  · rw [hmap, List.pairwise_iff_getElem]
    intro i j hi hj hij
    unfold ComesBefore
    rwa [hnodup.idxOf_getElem i hi, hnodup.idxOf_getElem j hj]

theorem watches_iff {w : WatchList} {source : String} :
    w.watches source = true ↔ source ∈ w.names :=
  List.contains_iff_mem

/-- Entries of the same set watch the same. -/
theorem watches_congr {entries entries' : List String}
    (h : ∀ entry, entry ∈ entries' ↔ entry ∈ entries) (source : String) :
    (ofNames entries').watches source = (ofNames entries).watches source := by
  rw [Bool.eq_iff_iff, watches_iff, watches_iff, mem_ofNames_iff, mem_ofNames_iff]
  simp only [h]

/-- Nothing is watched if the entries are blank. -/
theorem isEmpty_ofNames_iff {entries : List String} :
    (ofNames entries).isEmpty = true ↔ ∀ entry ∈ entries, Text.Trims entry.toList [] := by
  unfold isEmpty
  rw [List.isEmpty_iff, List.eq_nil_iff_forall_not_mem]
  have hblank : ∀ entry : String, Text.Trims entry.toList [] ↔ nameOf entry = "" := by
    intro entry
    rw [nameOf_eq_iff, String.toList_empty]
  simp only [ofNames, mem_canonical_iff, hblank]
  constructor
  · intro h entry hentry
    by_contra hne
    exact h _ ⟨hne, List.mem_map_of_mem hentry⟩
  · rintro h name ⟨hne, hmem⟩
    obtain ⟨entry, hentry, rfl⟩ := List.mem_map.1 hmem
    exact hne (h entry hentry)

theorem watchList?_cases (entries : List String) :
    (ofNames entries).isEmpty = true ∧ Settings.watchList? ⟨entries⟩ = none
      ∨ ¬ (ofNames entries).isEmpty = true
        ∧ Settings.watchList? ⟨entries⟩ = some (ofNames entries) := by
  have hlist : Settings.watchList? ⟨entries⟩
      = if (ofNames entries).isEmpty then none else some (ofNames entries) := rfl
  by_cases h : (ofNames entries).isEmpty = true
  · exact .inl ⟨h, by rw [hlist, if_pos h]⟩
  · exact .inr ⟨h, by rw [hlist, if_neg h]⟩

/-- **A list of entries stands for one watch list, which stands for itself.**  A
source is watched if it is not empty and an entry with nothing but white space
around it; the order of the entries and their repetition do not matter.  Settings
give no watch list only if all their entries are blank. -/
theorem ofNames_canonical (entries : List String) :
    StandsFor entries (ofNames entries)
      ∧ (∀ source, (ofNames entries).watches source = true
        ↔ source ≠ "" ∧ ∃ entry ∈ entries, Text.Trims entry.toList source.toList)
      ∧ ofNames (ofNames entries).names = ofNames entries
      ∧ (∀ entries' : List String, (∀ entry, entry ∈ entries' ↔ entry ∈ entries) →
        ∀ source, (ofNames entries').watches source = (ofNames entries).watches source)
      ∧ (Settings.watchList? ⟨entries⟩ = none
        ↔ ∀ entry ∈ entries, Text.Trims entry.toList [])
      ∧ ∀ w, Settings.watchList? ⟨entries⟩ = some w → w = ofNames entries := by
  refine ⟨standsFor_ofNames entries, fun source => watches_iff.trans mem_ofNames_iff,
    ofNames_eq_iff.2 (standsFor_names entries), fun _ => watches_congr, ?_, fun w hw => ?_⟩
  · rw [← isEmpty_ofNames_iff]
    rcases watchList?_cases entries with ⟨hempty, hnone⟩ | ⟨hempty, hsome⟩
    · simp [hempty, hnone]
    · simp [hempty, hsome]
  · rcases watchList?_cases entries with ⟨-, hnone⟩ | ⟨-, hsome⟩
    · rw [hnone] at hw
      cases hw
    · rw [hsome] at hw
      exact (Option.some.inj hw).symm

end WatchList

end ImportSplit
