/-
  ImportSplit.Proofs.FileTrees
  ────────────────────────────────
  **WRITING FILES.**

  A tree is seen from its locations: a location is the names on the way from the
  root, and holds a file with its contents, a directory, or nothing.

      a.js, ./a.js, lib/../a.js    all denote the location  [.., "a.js"]

  Where a path leads depends only on which locations are files and which are
  directories, so writing files moves no path; and the last name of a path to a
  file is the last name of its location, so two paths to one file are rewritten
  alike.

    • `rewriting_of_locate?_eq` — two paths to one file are rewritten alike,
    • `item?_write` — one write sets its location and keeps all others,
    • `item?_writeAll_of_forall_ne` — many writes keep what none of them writes,
    • `item?_writeAll` — and every file is as it was written,
    • `mem_texts_writeAll` — so no text stands in the tree but those from before
      and those that were written.
-/
import Mathlib.Data.List.Induction
import ImportSplit.Files.Rewriting

namespace ImportSplit.Files

/-! ## §1. What stands at a location. -/

/-- A file with what it holds, or a directory without what is in it. -/
inductive Item where
  | file (contents : Contents)
  | directory
  deriving Repr, DecidableEq

/-- What an entry is. -/
def Entry.item : Entry → Item
  | .file contents => .file contents
  | .directory _ => .directory

/-- The item is a directory. -/
def Item.isDirectory : Item → Bool
  | file _ => false
  | directory => true

/-- Contents given by a text hold it, and others hold none. -/
@[simp]
theorem Contents.text?_coe (text : Option String) : (text : Contents).text? = text := by
  cases text <;> rfl

theorem Listing.find?_insert (name other : String) (e : Entry) :
    ∀ l : Listing, (l.insert name e).find? other = if other = name then some e else l.find? other
  | .nil => by
      show (if name = other then some e else none) = if other = name then some e else none
      simp only [eq_comm]
  | .cons n old rest => by
      have ih := Listing.find?_insert name other e rest
      unfold Listing.insert
      split
      · next hn =>
          subst hn
          show (if n = other then some e else rest.find? other)
            = if other = n then some e else if n = other then some old else rest.find? other
          by_cases h : other = n
          · rw [if_pos h, if_pos h.symm]
          · rw [if_neg h, if_neg (Ne.symm h), if_neg (Ne.symm h)]
      · next hn =>
          show (if n = other then some old else (rest.insert name e).find? other)
            = if other = name then some e else if n = other then some old else rest.find? other
          rw [ih]
          by_cases h : n = other
          · subst h
            rw [if_pos rfl, if_neg hn, if_pos rfl]
          · rw [if_neg h, if_neg h]

namespace Entry

theorem find?_append (names more : List String) :
    ∀ e : Entry, e.find? (names ++ more) = (e.find? names).bind (find? more) := by
  induction names with
  | nil => intro e; rfl
  | cons n names ih =>
      intro e
      show (e.listing.find? n).bind (find? (names ++ more))
        = ((e.listing.find? n).bind (find? names)).bind (find? more)
      cases e.listing.find? n with
      | none => rfl
      | some child => exact ih child

/-- What has something below it is a directory. -/
theorem item_of_find?_listing {e child : Entry} {name : String}
    (h : e.listing.find? name = some child) : e.item = .directory := by
  cases e with
  | file text => cases h
  | directory entries => rfl

/-- Putting a file in the place of a file changes nothing elsewhere. -/
theorem item_find?_insert (new old : Contents) (names : List String) :
    ∀ (e : Entry) (other : List String), (e.find? names).map item = some (.file old) →
      ((insert (.file new) names e).find? other).map item
        = if other = names then some (.file new) else (e.find? other).map item := by
  induction names with
  | nil =>
      intro e other hfile
      cases e with
      | directory entries => cases hfile
      | file _ =>
          cases other with
          | nil => rfl
          | cons m rest => rfl
  | cons n names ih =>
      intro e other hfile
      obtain ⟨found, hfound, hitem⟩ := Option.map_eq_some_iff.1 hfile
      obtain ⟨child, hchild, hbelow⟩ := Option.bind_eq_some_iff.1 hfound
      have hinsert : insert (.file new) (n :: names) e
          = .directory (e.listing.insert n (insert (.file new) names child)) := by
        show directory (e.listing.insert n
          (insert (.file new) names ((e.listing.find? n).getD default))) = _
        rw [hchild]
        rfl
      rw [hinsert]
      cases other with
      | nil =>
          show some Item.directory = some e.item
          rw [item_of_find?_listing hchild]
      | cons m rest =>
          show (((e.listing.insert n _).find? m).bind (find? rest)).map item
            = if m :: rest = n :: names then _ else ((e.listing.find? m).bind (find? rest)).map item
          rw [Listing.find?_insert]
          by_cases hm : m = n
          · subst hm
            rw [if_pos rfl, hchild]
            have hrest := ih child rest (by rw [hbelow]; exact congrArg some hitem)
            simpa only [List.cons.injEq, true_and, Option.bind_some] using hrest
          · rw [if_neg hm, if_neg (fun h => hm (List.cons.inj h).1)]

end Entry

namespace FileTree

/-- What stands at a location. -/
def item? (t : FileTree) (names : List String) : Option Item :=
  (t.root.find? names).map Entry.item

/-- Whether a directory stands at a location, if anything does. -/
def kind? (t : FileTree) (names : List String) : Option Bool :=
  (t.item? names).map Item.isDirectory

theorem item?_eq_directory_iff {t : FileTree} {names : List String} :
    t.item? names = some .directory ↔ t.kind? names = some true := by
  unfold kind?
  cases t.item? names with
  | none => simp
  | some item => cases item <;> simp [Item.isDirectory]

theorem kind?_eq_some_false_iff {t : FileTree} {names : List String} :
    t.kind? names = some false ↔ ∃ contents, t.item? names = some (.file contents) := by
  unfold kind?
  cases t.item? names with
  | none => simp
  | some item => cases item <;> simp [Item.isDirectory]

/-- What a directory is in is a directory. -/
theorem item?_dropLast {t : FileTree} {names : List String}
    (h : t.item? names = some .directory) : t.item? names.dropLast = some .directory := by
  rcases List.eq_nil_or_concat names with rfl | ⟨front, last, rfl⟩
  · exact h
  · rw [List.concat_eq_append] at h ⊢
    rw [List.dropLast_concat]
    unfold item? at h ⊢
    rw [Entry.find?_append] at h
    cases hfind : t.root.find? front with
    | none => simp [hfind] at h
    | some e =>
        cases e with
        | directory entries => rfl
        | file text => simp [hfind, Entry.find?, Entry.listing, Listing.find?] at h

/-- The locations from which a path may go on are the directories. -/
theorem follow_cons (t : FileTree) (s : List Char) (rest : List (List Char))
    (names : List String) :
    t.follow (s :: rest) names =
      if t.kind? names.reverse = some true then
        if s = [] ∨ s = ['.'] then t.follow rest names
        else if s = ['.', '.'] then t.follow rest names.tail
        else if (t.kind? (names.reverse ++ [String.ofList s])).isSome then
          t.follow rest (String.ofList s :: names)
        else none
      else none := by
  have hbelow : (t.kind? (names.reverse ++ [String.ofList s])).isSome
      = ((t.root.find? names.reverse).bind fun e => e.listing.find? (String.ofList s)).isSome := by
    unfold kind? item?
    rw [Entry.find?_append, Option.isSome_map, Option.isSome_map]
    cases t.root.find? names.reverse with
    | none => rfl
    | some e =>
        show ((e.listing.find? (String.ofList s)).bind some).isSome
          = (e.listing.find? (String.ofList s)).isSome
        rw [Option.bind_fun_some]
  rw [hbelow, follow]
  unfold kind? item?
  cases t.root.find? names.reverse with
  | none => rfl
  | some e =>
      cases e with
      | file text => rfl
      | directory entries => rfl

theorem isFile_iff {t : FileTree} {path : String} :
    t.isFile path = true ↔ ∃ names, t.locate? path = some names ∧ t.kind? names = some false := by
  unfold isFile entry? kind? item?
  cases t.locate? path with
  | none => simp
  | some names =>
      cases hfind : t.root.find? names with
      | none => simp [hfind]
      | some e => cases e <;> simp [hfind, Entry.isDirectory, Entry.item, Item.isDirectory]

/-! ## §2. Trees of the same shape. -/

/-- The trees have files in the same places, and directories in the same. -/
structure SameShape (t u : FileTree) : Prop where
  workingDirectory : t.workingDirectory = u.workingDirectory
  kind? : ∀ names, t.kind? names = u.kind? names

theorem SameShape.follow {t u : FileTree} (h : SameShape t u) (ss : List (List Char)) :
    ∀ names, t.follow ss names = u.follow ss names := by
  induction ss with
  | nil => intro names; rfl
  | cons s ss ih =>
      intro names
      rw [follow_cons, follow_cons, h.kind?, h.kind?, ih, ih, ih]

/-- Paths lead to the same locations in trees of the same shape. -/
theorem SameShape.locate? {t u : FileTree} (h : SameShape t u) (path : String) :
    t.locate? path = u.locate? path := by
  unfold FileTree.locate?
  rw [h.workingDirectory]
  simp only [h.follow]

/-- A path that leads to a file does so in all trees of the same shape. -/
theorem SameShape.isFile {t u : FileTree} (h : SameShape t u) (path : String) :
    t.isFile path = u.isFile path := by
  rw [Bool.eq_iff_iff, isFile_iff, isFile_iff]
  simp only [h.locate?, h.kind?]

theorem SameShape.trans {t u v : FileTree} (h : SameShape t u) (h' : SameShape u v) :
    SameShape t v where
  workingDirectory := h.workingDirectory.trans h'.workingDirectory
  kind? := fun names => (h.kind? names).trans (h'.kind? names)

/-- A path reads as a text if it leads to a file of this text. -/
theorem read?_eq_some_iff {t : FileTree} {path text : String} :
    t.read? path = some text ↔ ∃ names, t.locate? path = some names
      ∧ t.item? names = some (.file (.text text)) := by
  unfold read? entry? item?
  cases t.locate? path with
  | none => simp
  | some names =>
      cases hfind : t.root.find? names with
      | none => simp [hfind]
      | some e =>
          cases e with
          | directory entries => simp [hfind, Entry.item]
          | file contents => cases contents <;> simp [hfind, Entry.item, Contents.text?]

/-- What a path reads as is told by where it leads and what stands there. -/
theorem read?_congr {t u : FileTree} {path : String} (hshape : SameShape t u)
    (hitem : ∀ names, t.locate? path = some names → t.item? names = u.item? names) :
    t.read? path = u.read? path := by
  apply Option.ext
  intro text
  rw [read?_eq_some_iff, read?_eq_some_iff, ← hshape.locate?]
  constructor
  · rintro ⟨names, hlocate, hfile⟩
    exact ⟨names, hlocate, (hitem names hlocate).symm.trans hfile⟩
  · rintro ⟨names, hlocate, hfile⟩
    exact ⟨names, hlocate, (hitem names hlocate).trans hfile⟩

/-! ## §3. Two paths to one file. -/

/-- A path that leads to a file ends with the name of the file: behind a slash, a
point or `..` it would lead to a directory. -/
theorem getLast?_of_follow {t : FileTree} {contents : Contents} {out : List String} :
    ∀ (s : List Char) (ss : List (List Char)) (names : List String),
      t.follow (s :: ss) names = some out → t.item? out.reverse = some (.file contents) →
        ∃ last, (s :: ss).getLast? = some last ∧ out.head? = some (String.ofList last)
          ∧ Component.ofSegment? last = some (.name (String.ofList last)) := by
  intro s ss
  induction ss generalizing s with
  | nil =>
      intro names hfollow hfile
      rw [follow_cons] at hfollow
      split at hfollow
      · next hkind =>
          have hdirectory : t.item? names.reverse = some .directory :=
            item?_eq_directory_iff.2 hkind
          split at hfollow
          · -- the path ends at the directory it has come to
            obtain rfl : names = out := Option.some.inj hfollow
            rw [hdirectory] at hfile
            cases hfile
          · next hstay =>
              split at hfollow
              · obtain rfl : names.tail = out := Option.some.inj hfollow
                rw [← List.dropLast_reverse, item?_dropLast hdirectory] at hfile
                cases hfile
              · next hup =>
                  split at hfollow
                  · obtain rfl : String.ofList s :: names = out := Option.some.inj hfollow
                    refine ⟨s, rfl, rfl, ?_⟩
                    unfold Component.ofSegment?
                    rw [if_neg hstay, if_neg hup]
                  · cases hfollow
      · cases hfollow
  | cons next ss ih =>
      intro names hfollow hfile
      rw [follow_cons] at hfollow
      split at hfollow
      · split at hfollow
        · exact ih next names hfollow hfile
        · split at hfollow
          · exact ih next names.tail hfollow hfile
          · split at hfollow
            · exact ih next _ hfollow hfile
            · cases hfollow
      · cases hfollow

end FileTree

theorem segments_ne_nil (s : List Char) : segments s ≠ [] := by
  cases s with
  | nil => exact List.cons_ne_nil _ _
  | cons c s =>
      unfold segments
      split
      · exact List.cons_ne_nil _ _
      · split <;> exact List.cons_ne_nil _ _

/-- The last name of a path is its last segment, if that is a name. -/
theorem lastName?_of_getLast? {path : String} {last : List Char}
    (hlast : (segments path.toList).getLast? = some last)
    (hname : Component.ofSegment? last = some (.name (String.ofList last))) :
    lastName? path = some (String.ofList last) := by
  have hcomponents : (components path).getLast? = some (.name (String.ofList last)) := by
    unfold components
    cases hsegments : segments path.toList with
    | nil =>
        rw [hsegments] at hlast
        cases hlast
    | cons first rest =>
        rw [hsegments] at hlast
        rcases List.eq_nil_or_concat rest with rfl | ⟨front, s, rfl⟩
        · obtain rfl : first = last := Option.some.inj hlast
          have hhere : first ≠ ['.'] := by
            rintro rfl
            cases hname
          simp [hhere, hname]
        · rw [List.concat_eq_append] at hlast ⊢
          obtain rfl : s = last := by
            rw [← List.cons_append, List.getLast?_concat] at hlast
            exact Option.some.inj hlast
          simp [hname]
  unfold lastName?
  rw [hcomponents]

namespace FileTree

variable {t : FileTree} {path other : String} {names : List String}

/-- The last name of a path to a file is that of its location. -/
theorem lastName?_eq_getLast? {contents : Contents} (hlocate : t.locate? path = some names)
    (hfile : t.item? names = some (.file contents)) : lastName? path = names.getLast? := by
  unfold locate? at hlocate
  split at hlocate
  · cases hlocate
  · obtain ⟨out, hfollow, rfl⟩ := Option.map_eq_some_iff.1 hlocate
    obtain ⟨s, ss, hsegments⟩ := List.exists_cons_of_ne_nil (segments_ne_nil path.toList)
    rw [hsegments] at hfollow
    obtain ⟨last, hlast, hout, hname⟩ := getLast?_of_follow s ss _ hfollow hfile
    rw [← hsegments] at hlast
    rw [lastName?_of_getLast? hlast hname, List.getLast?_reverse, hout]

/-- Two paths to one file are of one dialect. -/
theorem dialect?_of_locate?_eq {contents : Contents} (hlocate : t.locate? path = some names)
    (hother : t.locate? other = some names) (hfile : t.item? names = some (.file contents)) :
    dialect? other = dialect? path := by
  unfold dialect? extension?
  rw [lastName?_eq_getLast? hlocate hfile, lastName?_eq_getLast? hother hfile]

theorem rewriting_eq_ok_iff {w : WatchList} {r : Rewriting} :
    t.rewriting w path = .ok r ↔ ∃ d text o, dialect? path = some d ∧ t.read? path = some text
      ∧ splitSource w d text = .ok o ∧ r = ⟨path, text, o.getD text⟩ := by
  unfold rewriting
  cases dialect? path with
  | none => simp
  | some d =>
      cases t.read? path with
      | none => simp
      | some text =>
          cases hsplit : splitSource w d text with
          | error fault => simp [hsplit]
          | ok o => simp [hsplit, eq_comm]

theorem path_of_rewriting {w : WatchList} {r : Rewriting} (h : t.rewriting w path = .ok r) :
    r.path = path := by
  obtain ⟨d, text, o, -, -, -, rfl⟩ := rewriting_eq_ok_iff.1 h
  rfl

/-- A file that is rewritten reads as its original text. -/
theorem read?_of_rewriting {w : WatchList} {r : Rewriting} (h : t.rewriting w path = .ok r) :
    t.read? path = some r.original := by
  obtain ⟨d, text, o, -, htext, -, rfl⟩ := rewriting_eq_ok_iff.1 h
  exact htext

/-- Two paths to one file are rewritten alike. -/
theorem rewriting_of_locate?_eq {w : WatchList} {r : Rewriting}
    (hr : t.rewriting w path = .ok r) (hlocate : t.locate? other = t.locate? path) :
    t.rewriting w other = .ok { r with path := other } := by
  obtain ⟨d, text, o, hd, htext, ho, rfl⟩ := rewriting_eq_ok_iff.1 hr
  obtain ⟨names, hpath, hfile⟩ := read?_eq_some_iff.1 htext
  have hother : t.locate? other = some names := hlocate.trans hpath
  apply rewriting_eq_ok_iff.2
  refine ⟨d, text, o, ?_, ?_, ho, rfl⟩
  · rw [dialect?_of_locate?_eq hpath hother hfile, hd]
  · exact read?_eq_some_iff.2 ⟨names, hother, hfile⟩

/-! ## §4. One write. -/

/-- A write to a file sets what stands there, and nothing else. -/
theorem item?_write {text : String} (hpath : t.isFile path = true) (names : List String) :
    (t.write path text).item? names
      = if t.locate? path = some names then some (.file (.text text)) else t.item? names := by
  obtain ⟨target, hlocate, hkind⟩ := isFile_iff.1 hpath
  obtain ⟨old, hfile⟩ := kind?_eq_some_false_iff.1 hkind
  unfold write
  rw [hlocate]
  show ((Entry.insert (.file (.text text)) target t.root).find? names).map Entry.item = _
  rw [Entry.item_find?_insert (.text text) old target t.root names hfile]
  simp only [Option.some.injEq, eq_comm]
  rfl

/-- A write to a file keeps the shape of the tree. -/
theorem sameShape_write {text : String} (hpath : t.isFile path = true) :
    SameShape t (t.write path text) := by
  constructor
  · unfold write
    split <;> rfl
  · intro names
    obtain ⟨target, hlocate, hkind⟩ := isFile_iff.1 hpath
    by_cases h : t.locate? path = some names
    · obtain rfl : target = names := Option.some.inj (hlocate.symm.trans h)
      rw [hkind]
      symm
      apply kind?_eq_some_false_iff.2
      exact ⟨.text text, by rw [item?_write hpath, if_pos h]⟩
    · unfold kind?
      rw [item?_write hpath, if_neg h]

/-! ## §5. Many writes. -/

/-- The tree after these files are written in order. -/
def writeAll (t : FileTree) (rs : List Rewriting) : FileTree := rs.foldl (fun t r => r.write t) t

variable {rs : List Rewriting}

theorem writeAll_concat (t : FileTree) (rs : List Rewriting) (r : Rewriting) :
    t.writeAll (rs ++ [r]) = (t.writeAll rs).write r.path r.output := by
  unfold writeAll
  rw [List.foldl_append]
  rfl

/-- Writing files keeps the shape of the tree. -/
theorem sameShape_writeAll (hfiles : ∀ r ∈ rs, t.isFile r.path = true) :
    SameShape t (t.writeAll rs) := by
  induction rs using List.reverseRecOn with
  | nil => exact ⟨rfl, fun _ => rfl⟩
  | append_singleton rs r ih =>
      have hbefore : SameShape t (t.writeAll rs) :=
        ih fun r' hr' => hfiles r' (List.mem_append_left _ hr')
      have hfile : (t.writeAll rs).isFile r.path = true := by
        rw [← hbefore.isFile]
        exact hfiles r List.mem_concat_self
      rw [writeAll_concat]
      exact hbefore.trans (sameShape_write hfile)

/-- The last of many writes, seen from the tree before all of them. -/
theorem item?_writeAll_concat {r : Rewriting}
    (hfiles : ∀ r' ∈ rs ++ [r], t.isFile r'.path = true) (names : List String) :
    (t.writeAll (rs ++ [r])).item? names
      = if t.locate? r.path = some names then some (.file (.text r.output))
        else (t.writeAll rs).item? names := by
  have hshape : SameShape t (t.writeAll rs) :=
    sameShape_writeAll fun r' hr' => hfiles r' (List.mem_append_left _ hr')
  have hfile : (t.writeAll rs).isFile r.path = true := by
    rw [← hshape.isFile]
    exact hfiles r List.mem_concat_self
  rw [writeAll_concat, item?_write hfile, ← hshape.locate?]

/-- A location that none of the files stands at is as it was. -/
theorem item?_writeAll_of_forall_ne (hfiles : ∀ r ∈ rs, t.isFile r.path = true)
    (hne : ∀ r ∈ rs, t.locate? r.path ≠ some names) :
    (t.writeAll rs).item? names = t.item? names := by
  induction rs using List.reverseRecOn with
  | nil => rfl
  | append_singleton rs last ih =>
      rw [item?_writeAll_concat hfiles, if_neg (hne last List.mem_concat_self)]
      apply ih
      · intro r hr
        exact hfiles r (List.mem_append_left _ hr)
      · intro r hr
        exact hne r (List.mem_append_left _ hr)

/-- **Every file is as it was written**, also if it is written under several
paths, provided that all of them write the same. -/
theorem item?_writeAll (hfiles : ∀ r ∈ rs, t.isFile r.path = true)
    (hagree : ∀ r ∈ rs, ∀ r' ∈ rs, t.locate? r.path = t.locate? r'.path → r.output = r'.output) :
    ∀ r ∈ rs, t.locate? r.path = some names →
      (t.writeAll rs).item? names = some (.file (.text r.output)) := by
  induction rs using List.reverseRecOn with
  | nil => intro r hr; cases hr
  | append_singleton rs last ih =>
      intro r hr hlocate
      rw [item?_writeAll_concat hfiles]
      by_cases hsame : t.locate? last.path = some names
      · rw [if_pos hsame, hagree last List.mem_concat_self r hr (hsame.trans hlocate.symm)]
      · rw [if_neg hsame]
        rcases List.mem_append.1 hr with hearlier | hlast
        · apply ih _ _ r hearlier hlocate
          · intro a ha
            exact hfiles a (List.mem_append_left _ ha)
          · intro a ha b hb
            exact hagree a (List.mem_append_left _ ha) b (List.mem_append_left _ hb)
        · rw [List.mem_singleton.1 hlast] at hlocate
          exact absurd hlocate hsame

end FileTree

/-! ## §6. The texts of a tree. -/

/-- The path of a location below another path. -/
def pathBelow (path : String) (names : List String) : String := names.foldl below path

variable {path text : String} {e child : Entry} {name : String}
  {names : List String} {file : String × String}

theorem Listing.mem_texts_of_find? (hfile : file ∈ child.texts (below path name)) :
    ∀ l : Listing, l.find? name = some child → file ∈ l.texts path
  | .nil, h => by cases h
  | .cons n first rest, h => by
      unfold Listing.find? at h
      split at h
      · next hn =>
          cases h
          subst hn
          exact List.mem_append_left _ hfile
      · exact List.mem_append_right _ (Listing.mem_texts_of_find? hfile rest h)

theorem Listing.mem_texts_insert :
    ∀ l : Listing, file ∈ (l.insert name child).texts path →
      file ∈ l.texts path ∨ file ∈ child.texts (below path name)
  | .nil, h => (List.mem_append.1 h).symm
  | .cons n first rest, h => by
      unfold Listing.insert at h
      split at h
      · next hn =>
          subst hn
          rcases List.mem_append.1 h with hnew | hrest
          · exact .inr hnew
          · exact .inl (List.mem_append_right _ hrest)
      · rcases List.mem_append.1 h with hfirst | hrest
        · exact .inl (List.mem_append_left _ hfirst)
        · exact (Listing.mem_texts_insert rest hrest).imp_left (List.mem_append_right _)

namespace Entry

/-- A text in an entry is among its texts, under the path of its location. -/
theorem mem_texts_of_find? (h : e.find? names = some (.file (.text text))) :
    (pathBelow path names, text) ∈ e.texts path := by
  induction names generalizing e path with
  | nil =>
      cases h
      exact List.mem_singleton_self _
  | cons n names ih =>
      obtain ⟨child, hchild, hbelow⟩ := Option.bind_eq_some_iff.1 h
      cases e with
      | file contents => cases hchild
      | directory entries => exact Listing.mem_texts_of_find? (ih hbelow) _ hchild

/-- Putting a text in adds no other text. -/
theorem mem_texts_insert (hfile : file ∈ (insert (.file (.text text)) names e).texts path) :
    file ∈ e.texts path ∨ file = (pathBelow path names, text) := by
  induction names generalizing e path with
  | nil => exact .inr (List.mem_singleton.1 hfile)
  | cons n names ih =>
      have hlisting : file ∈ e.listing.texts path → file ∈ e.texts path := by
        cases e with
        | file contents => exact fun h => by cases h
        | directory entries => exact id
      rcases Listing.mem_texts_insert _ hfile with hold | hnew
      · exact .inl (hlisting hold)
      · refine (ih hnew).imp_left fun hchild => hlisting ?_
        cases hfind : e.listing.find? n with
        | none =>
            rw [hfind] at hchild
            cases hchild
        | some child =>
            rw [hfind] at hchild
            exact Listing.mem_texts_of_find? hchild _ hfind

end Entry

namespace FileTree

variable {t : FileTree} {rs : List Rewriting}

/-- **A text that can be read is among the texts of the tree**, where it was found. -/
theorem mem_texts_of_read? (h : t.read? path = some text) :
    ∃ names, t.locate? path = some names ∧ (pathBelow "" names, text) ∈ t.root.texts "" := by
  obtain ⟨names, hlocate, hfile⟩ := read?_eq_some_iff.1 h
  obtain ⟨e, he, hitem⟩ := Option.map_eq_some_iff.1 hfile
  cases e with
  | directory entries => cases hitem
  | file contents =>
      cases hitem
      exact ⟨names, hlocate, Entry.mem_texts_of_find? he⟩

/-- Writing a text adds no other text. -/
theorem mem_texts_write (hfile : file ∈ (t.write path text).root.texts "") :
    file ∈ t.root.texts "" ∨ file.2 = text := by
  unfold write at hfile
  split at hfile
  · exact (Entry.mem_texts_insert hfile).imp_right fun h => by rw [h]
  · exact .inl hfile

/-- **Writing files adds no text but what they are rewritten to.** -/
theorem mem_texts_writeAll (hfile : file ∈ (t.writeAll rs).root.texts "") :
    file ∈ t.root.texts "" ∨ ∃ r ∈ rs, file.2 = r.output := by
  induction rs using List.reverseRecOn with
  | nil => exact .inl hfile
  | append_singleton rs r ih =>
      rw [writeAll_concat] at hfile
      rcases mem_texts_write hfile with hbefore | hnew
      · refine (ih hbefore).imp_right ?_
        rintro ⟨r', hr', htext⟩
        exact ⟨r', List.mem_append_left _ hr', htext⟩
      · exact .inr ⟨r, List.mem_concat_self, hnew⟩

end FileTree

end ImportSplit.Files
