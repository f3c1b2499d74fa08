/-
  ImportSplit.Proofs.Texts
  ────────────────────────────────
  **TEXTS, AND WHAT IS ANSWERED FOR THEM.**

  Reading a text drops nothing but the gaps between its statements:

      text  =  gap₀  s₁  gap₁  s₂  …  sₙ  gapₙ          (`spelledWith_of_ofSource`)

  A splitter answers nothing for a text exactly if the module that it is
  takes nothing from a watched module (`Splitter.split_after`).  That no import
  is watched leaves the tree alone is plain.  The converse holds for modules
  that were read: their declarations have a text, and no declaration of a
  watched module has one after a split (`Program.raw_of_watched`).
-/
import ImportSplit.Proofs.Boundaries

namespace ImportSplit

/-! ## §1. A text is spelled out by its statements. -/

/-- The text of a first gap and of all statements, each with the gap behind it. -/
def Program.spelledWith (first : String) (gaps : List String) (p : Program) : String :=
  first ++ String.join ((p.body.zip gaps).map fun (s, gap) => s.spelling ++ gap)

namespace Grammar

/-- The texts of a row of nodes, and the gaps between them, are the text. -/
theorem Segments.exists_gaps {d : Dialect} {s : List Char} {ns : List Node}
    (h : Segments d s ns) :
    ∃ (first : String) (gaps : List String), gaps.length = ns.length
      ∧ (∀ g ∈ first :: gaps, ∀ c ∈ g.toList, Text.isGap c = true)
      ∧ (Program.spelledWith first gaps ⟨ns.map Statement.ofNode⟩).toList = s := by
  induction h with
  | @done s hblank =>
      refine ⟨String.ofList s, [], rfl, ?_, ?_⟩
      · intro g hg c hc
        rw [List.mem_singleton.1 hg, String.toList_ofList] at hc
        exact hblank c hc
      · simp [Program.spelledWith]
  | @next blanks s n ns hblank hne hread hrest ih =>
      obtain ⟨first, gaps, hlength, hgaps, htext⟩ := ih
      refine ⟨String.ofList blanks, first :: gaps, by simp [hlength], ?_, ?_⟩
      · intro g hg c hc
        rcases List.mem_cons.1 hg with rfl | hg
        · rw [String.toList_ofList] at hc
          exact hblank c hc
        · exact hgaps g hg c hc
      · rw [← htext]
        simp [Program.spelledWith, String.toList_append, Statement.spelling_ofNode]

end Grammar

namespace Program

variable {d : Dialect} {source : String} {p : Program}

/-- **A text that is a module is spelled out by its statements, up to gaps.** -/
theorem spelledWith_of_ofSource (h : ofSource d source = .ok p) :
    ∃ (first : String) (gaps : List String), gaps.length = p.body.length
      ∧ (∀ g ∈ first :: gaps, ∀ c ∈ g.toList, Text.isGap c = true)
      ∧ p.spelledWith first gaps = source := by
  obtain ⟨ns, hbody, hsegments, -⟩ := segments_of_ofSource? (ofSource_eq_ok_iff.1 h)
  obtain ⟨first, gaps, hlength, hgaps, htext⟩ := hsegments.exists_gaps
  have hp : p = ⟨ns.map Statement.ofNode⟩ := congrArg Program.mk hbody
  refine ⟨first, gaps, ?_, hgaps, ?_⟩
  · rw [hlength, hbody, List.length_map]
  · rw [hp]
    exact String.toList_inj.1 htext

/-- A character of the text stands in a gap or in a statement. -/
theorem mem_spelledWith {first : String} {gaps : List String} {c : Char}
    (h : c ∈ (p.spelledWith first gaps).toList) :
    (∃ g ∈ first :: gaps, c ∈ g.toList) ∨ ∃ s ∈ p.body, c ∈ s.spelling.toList := by
  unfold spelledWith at h
  rw [String.toList_append, List.mem_append, String.toList_join, List.mem_flatMap] at h
  rcases h with h | ⟨t, ht, hc⟩
  · exact .inl ⟨first, List.mem_cons_self, h⟩
  · obtain ⟨⟨s, gap⟩, hmem, rfl⟩ := List.mem_map.1 ht
    obtain ⟨hs, hgap⟩ := List.of_mem_zip hmem
    rcases List.mem_append.1 (String.toList_append ▸ hc) with hc | hc
    · exact .inr ⟨s, hs, hc⟩
    · exact .inl ⟨gap, List.mem_cons_of_mem _ hgap, hc⟩

/-- Two statements with a zero-width space between them. -/
def zeroWidthText : String := "a;\u200bb;"

theorem map_spelling_zeroWidthText :
    (ofSource? .js zeroWidthText).map (fun p => p.body.map Statement.spelling)
      = some ["a;", "b;"] := by
  decide +kernel

theorem spelledWith_of_ofSource_zeroWidthText :
    ∃ p, ofSource .js zeroWidthText = .ok p
      ∧ ∃ (first : String) (gaps : List String), gaps.length = p.body.length
        ∧ (∀ g ∈ first :: gaps, ∀ c ∈ g.toList, Text.isGap c = true)
        ∧ p.spelledWith first gaps = zeroWidthText := by
  obtain ⟨p, hp, -⟩ := Option.map_eq_some_iff.1 map_spelling_zeroWidthText
  have hsource := ofSource_eq_ok_iff.2 hp
  exact ⟨p, hsource, spelledWith_of_ofSource hsource⟩

/-- The gaps need not be white space: a zero-width space is neither that nor a
byte order mark, and no statement keeps it. -/
theorem not_spelledWith_white :
    ¬ ∀ (d : Dialect) (source : String) (p : Program), ofSource d source = .ok p →
      ∃ (first : String) (gaps : List String), gaps.length = p.body.length
        ∧ (∀ g ∈ first :: gaps, ∀ c ∈ g.toList, (Text.isWhite c || c == '\ufeff') = true)
        ∧ p.spelledWith first gaps = source := by
  intro h
  obtain ⟨p, hp, htexts⟩ := Option.map_eq_some_iff.1 map_spelling_zeroWidthText
  obtain ⟨first, gaps, -, hgaps, htext⟩ := h .js zeroWidthText p (ofSource_eq_ok_iff.2 hp)
  -- the zero-width space stands in none of the texts that are put together
  have hfree : ∀ g ∈ first :: gaps, '\u200b' ∉ g.toList := by
    intro g hg hmem
    have hblank := hgaps g hg _ hmem
    exact absurd hblank (by decide)
  have hstatements : ∀ s ∈ p.body, '\u200b' ∉ s.spelling.toList := by
    intro s hs
    have hmem : s.spelling ∈ p.body.map Statement.spelling := List.mem_map_of_mem hs
    have hall : ∀ t ∈ ["a;", "b;"], '\u200b' ∉ t.toList := by decide
    exact hall _ (htexts ▸ hmem)
  have hmem : '\u200b' ∈ (p.spelledWith first gaps).toList := by
    rw [htext]
    decide
  rcases mem_spelledWith hmem with ⟨g, hg, hc⟩ | ⟨s, hs, hc⟩
  · exact hfree g hg hc
  · exact hstatements s hs hc

end Program

/-! ## §2. When a split changes nothing. -/

namespace Program

variable {w : WatchList} {d : Dialect} {source : String} {p : Program}

/-- A declaration that was read has its text. -/
theorem raw_of_ofSource (h : ofSource d source = .ok p) : ∀ i ∈ p.imports, i.raw ≠ none := by
  obtain ⟨ns, hbody, -⟩ := segments_of_ofSource? (ofSource_eq_ok_iff.1 h)
  intro i hi
  obtain ⟨s, hs, hsi⟩ := List.mem_filterMap.1 hi
  rw [hbody] at hs
  obtain ⟨n, -, rfl⟩ := List.mem_map.1 hs
  cases hn : ImportDecl.ofNode? n with
  | none =>
      rw [Statement.ofNode_of_none hn] at hsi
      cases hsi
  | some decl =>
      rw [Statement.ofNode_of_some hn] at hsi
      obtain rfl : decl = i := Option.some.inj hsi
      obtain ⟨-, -, -, -, -, -, hraw⟩ := ImportDecl.of_ofNode? hn
      rw [hraw]
      exact Option.some_ne_none _

/-- After a split no declaration of a watched module has a text: it was inserted,
or it was rebuilt to hold the types. -/
theorem raw_of_watched {i : ImportDecl} (hi : i ∈ (p.split w).imports)
    (hw : w.watches i.source = true) : i.raw = none := by
  obtain ⟨s, hs, hsi⟩ := List.mem_filterMap.1 hi
  cases s with
  | other n => cases hsi
  | importing decl =>
      obtain rfl : decl = i := Option.some.inj hsi
      rcases mem_split_body hs with ⟨m, -, hm⟩ | ⟨scope, t, -, hkept⟩
      · rw [Statement.importing.inj hm]
        rfl
      · exact (Statement.settled_of_mem_kept hkept hw).1

/-- **A module that was read is its own split exactly if it imports no watched
module.** -/
theorem split_eq_iff_of_ofSource (h : ofSource d source = .ok p) :
    p.split w = p ↔ ∀ i ∈ p.imports, w.watches i.source = false := by
  refine ⟨fun hsame i hi => Bool.eq_false_iff.2 fun hw => ?_, split_of_unwatched⟩
  rw [← hsame] at hi
  exact raw_of_ofSource h i (hsame ▸ hi) (raw_of_watched hi hw)

end Program

namespace Program

variable {w : WatchList} {source : String} {p : Program}

theorem splitChange_eq_none_iff : p.splitChange w source = none ↔ p.split w = p := by
  refine ⟨fun h => ?_, fun h => if_pos h⟩
  by_cases hsame : p.split w = p
  · exact hsame
  · exact nomatch (if_neg hsame).symm.trans h

theorem splitChange_of_ne (h : p.split w ≠ p) :
    p.splitChange w source
      = some (if source.toList.getLast? = some '\n' then (p.split w).spelling ++ "\n"
          else (p.split w).spelling) :=
  if_neg h

end Program

section
variable {w : WatchList} {d : Dialect} {source : String}

/-- Both ways to split a text fail with the fault of the reader. -/
theorem splitSource_eq_error_iff (fault : SyntaxFault) :
    splitSource w d source = .error fault ↔ splitText w d source = .error fault := by
  unfold splitSource splitText
  cases Program.ofSource d source with
  | error other =>
      show Except.error other = Except.error fault ↔ Except.error other = Except.error fault
      simp only [Except.error.injEq]
  | ok p =>
      constructor <;> intro h <;> cases h

theorem splitSource_eq_ok {p : Program} (h : Program.ofSource d source = .ok p) :
    splitSource w d source = .ok (p.splitChange w source) := by
  unfold splitSource
  rw [h]
  rfl

end

/-! ## §3. One text after the other. -/

namespace Splitter

variable {State : Type}

/-- One more text changes nothing but what the reader keeps. -/
theorem split_eq (t : Splitter State) (d : Dialect) (source : String) :
    (t.split d source).1 = splitSource t.watched d source
      ∧ (t.split d source).2.watched = t.watched := by
  refine ⟨?_, rfl⟩
  show (t.reader.read t.state d source).1.map _ = _
  rw [t.reader.read_eq]
  rfl

theorem watched_after (t : Splitter State) (earlier : List (Dialect × String)) :
    (t.after earlier).watched = t.watched := by
  induction earlier generalizing t with
  | nil => rfl
  | cons text earlier ih =>
      show ((t.split text.1 text.2).2.after earlier).watched = t.watched
      rw [ih, (t.split_eq text.1 text.2).2]

/-- **What a splitter answers**, whatever it was used for before: a fault where
`splitText` tells the same fault, nothing exactly if the module imports no
watched module, and else the text of `splitText`, with the line end of the
text that was read. -/
theorem split_after (t : Splitter State) (earlier : List (Dialect × String)) (d : Dialect)
    (source : String) :
    (∀ fault, ((t.after earlier).split d source).1 = .error fault
        ↔ splitText t.watched d source = .error fault)
      ∧ ∀ p, Program.ofSource d source = .ok p →
        (((t.after earlier).split d source).1 = .ok none
            ↔ ∀ i ∈ p.imports, t.watched.watches i.source = false)
          ∧ ((∃ i ∈ p.imports, t.watched.watches i.source = true) →
            ∃ out, splitText t.watched d source = .ok out
              ∧ ((t.after earlier).split d source).1
                = .ok (some (if source.toList.getLast? = some '\n' then out ++ "\n" else out))) := by
  rw [((t.after earlier).split_eq d source).1, t.watched_after earlier]
  refine ⟨splitSource_eq_error_iff, fun p hp => ?_⟩
  have hunwatched := Program.split_eq_iff_of_ofSource (w := t.watched) hp
  rw [splitSource_eq_ok hp, splitText_eq_ok hp]
  constructor
  · rw [Except.ok.injEq, Program.splitChange_eq_none_iff, hunwatched]
  · rintro ⟨i, hi, hw⟩
    have hne : p.split t.watched ≠ p := by
      intro hsame
      rw [hunwatched.1 hsame i hi] at hw
      cases hw
    exact ⟨_, rfl, congrArg Except.ok (Program.splitChange_of_ne hne)⟩

/-- A splitter whose reader counts its texts. -/
def counting (w : WatchList) : Splitter Nat where
  watched := w
  reader :=
    { read := fun count d source => (Program.ofSource d source, count + 1)
      read_eq := fun _ _ _ => rfl }
  state := 0

theorem split_after_counting :
    (((counting .standard).after [(.js, "import"), (.ts, "import _ from \"lodash\";")]).split .js
        "import \x7bget\x7d from \"lodash\";\n").1
      = .ok (some "import get from \"lodash/get\";\n") := by
  have hruns : (Program.ofSource? .js "import \x7bget\x7d from \"lodash\";\n").map
        (fun p => ((p.split .standard).spelling, p.imports.map fun i => i.source))
      = some ("import get from \"lodash/get\";", ["lodash"]) := by
    decide +kernel
  obtain ⟨p, hp, heq⟩ := Option.map_eq_some_iff.1 hruns
  obtain ⟨hspelling, hsources⟩ := Prod.mk.inj heq
  have hsource := Program.ofSource_eq_ok_iff.2 hp
  have hwatched : ∃ i ∈ p.imports, WatchList.standard.watches i.source = true := by
    have hmem : "lodash" ∈ p.imports.map fun i => i.source := by
      rw [hsources]
      exact List.mem_singleton_self _
    obtain ⟨i, hi, his⟩ := List.mem_map.1 hmem
    refine ⟨i, hi, ?_⟩
    rw [his]
    decide
  obtain ⟨out, hout, hanswer⟩ := ((split_after (counting .standard)
    [(.js, "import"), (.ts, "import _ from \"lodash\";")] .js _).2 p hsource).2 hwatched
  rw [hanswer]
  have hout' : out = "import get from \"lodash/get\";" := by
    have hok := (splitText_eq_ok (w := .standard) hsource).symm.trans hout
    rw [hspelling] at hok
    exact (Except.ok.inj hok).symm
  rw [hout', if_pos (by decide)]
  exact congrArg (fun t => Except.ok (some t)) (by decide)

end Splitter

end ImportSplit
