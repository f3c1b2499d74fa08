/-
  ImportSplit.Proofs.Boundaries
  ────────────────────────────────
  **THE STATEMENTS OF A SPLIT MODULE, READ AGAIN.**

  A split module is printed one statement to a line.  Nothing is written
  between two lines that would end the first one, so what is read there again
  depends on what follows.  A line is in its place if the piece that is read
  there is all of the line and no more (`InPlace`).

      a text is read as its lines  ↔  every line is in its place
                                              (`exists_ofSource_iff`)

  Some lines are in their places wherever they stand: comments, the imports
  that a split writes as long as their names are words (`IsSteady`), and
  statements that stand alone.  All other statements of a split module are
  `IsOpen`, and its text is a module unless one of those is out of its place
  (`readsAgain_of_splitText`):

      `f`  `(b)`               the first one goes on with the second
      `import @scope_pkg_map from "@scope/pkg/map";`      no word is bound
-/
import ImportSplit.Proofs.FixedText
import ImportSplit.Proofs.OpenTexts
import ImportSplit.Proofs.TypeMarks
import ImportSplit.Proofs.WrittenNames

namespace ImportSplit

open Grammar

/-! ## §1. Lines in their places. -/

/-- Nothing but comments is read on the lines `before`, in front of the lines `after`. -/
def onlyComments (d : Dialect) : (before after : List String) → Bool
  | [], _ => true
  | t :: before, after =>
      (commentHere? (!d.hasTypes) (lines (t :: (before ++ after)))).isSome
        && onlyComments d before after

/-- The line is read as one piece, all of it and no more, behind the lines
`before` and in front of the lines `after`. -/
def InPlace (d : Dialect) (before : List String) (t : String) (after : List String) : Prop :=
  ∃ n ∈ firstPiece d (onlyComments d before (t :: after)) (lines (t :: after)),
    n.spelling = t ∧ n.isSettled = true

theorem onlyComments_concat {d : Dialect} (before : List String) (t : String)
    (after : List String) :
    onlyComments d (before ++ [t]) after
      = stillBefore d (onlyComments d before (t :: after)) (lines (t :: after)) := by
  induction before with
  | nil => exact Bool.and_comm _ _
  | cons u before ih =>
      have hafter : before ++ [t] ++ after = before ++ t :: after := by simp
      rw [List.cons_append]
      unfold onlyComments
      rw [ih, hafter]
      exact (Bool.and_assoc _ _ _).symm

section
variable {d : Dialect} {beforeAll : Bool} {t : String} {ts : List String} {n : Node}
  {ns : List Node}

/-- A line end before pieces does not count. -/
theorem pieces_moreLines_iff :
    Pieces d beforeAll (moreLines ts) ns ↔ Pieces d beforeAll (lines ts) ns := by
  cases ts with
  | nil =>
      have hnil : lines [] = moreLines [] := by simp [lines, moreLines]
      rw [hnil]
  | cons t ts =>
      have hend : Text.isGap '\n' = true := by decide
      show Pieces d beforeAll ('\n' :: lines (t :: ts)) ns ↔ _
      constructor
      · intro h
        cases h with
        | blank _ h => exact h
        | next hfirst =>
            rw [firstPiece_of_blank hend] at hfirst
            cases hfirst
      · exact fun h => .blank hend h

/-- **Where a line is in its place, the others are read behind it.** -/
theorem pieces_lines_iff (hfirst : firstPiece d beforeAll (lines (t :: ts)) = some n)
    (ht : n.spelling = t) :
    Pieces d beforeAll (lines (t :: ts)) ns
      ↔ ∃ ns', ns = n :: ns' ∧ Pieces d (stillBefore d beforeAll (lines (t :: ts))) (lines ts) ns' := by
  have hdrop : (lines (t :: ts)).drop n.spelling.toList.length = moreLines ts := by
    rw [lines_cons, ht, List.drop_left]
  constructor
  · intro h
    generalize hs : lines (t :: ts) = s at h hfirst hdrop
    cases h with
    | done => cases hfirst
    | blank hc =>
        rw [firstPiece_of_blank hc] at hfirst
        cases hfirst
    | next hfirst' h =>
        obtain rfl := Option.some.inj (hfirst.symm.trans hfirst')
        rw [hdrop, pieces_moreLines_iff] at h
        exact ⟨_, rfl, h⟩
  · rintro ⟨ns', rfl, h⟩
    refine .next hfirst ?_
    rwa [hdrop, pieces_moreLines_iff]

/-- The text of the first piece does not start with a blank. -/
theorem isGap_of_pieces {s : List Char} (h : Pieces d beforeAll s (n :: ns)) :
    ∃ c rest, n.spelling.toList = c :: rest ∧ Text.isGap c = false := by
  generalize hns : n :: ns = ms at h
  induction h with
  | done => cases hns
  | blank _ _ ih => exact ih hns
  | next hfirst _ _ =>
      cases hns
      obtain ⟨c, rest, hc⟩ := List.exists_cons_of_ne_nil (readAt_of_firstPiece hfirst).2
      refine ⟨c, rest, hc, ?_⟩
      cases hgap : Text.isGap c with
      | false => rfl
      | true =>
          rw [text_of_firstPiece hfirst, hc, List.cons_append, firstPiece_of_blank hgap] at hfirst
          cases hfirst

/-- Where the first piece is spelled like the line, it is read there. -/
theorem firstPiece_of_pieces (h : Pieces d beforeAll (lines (t :: ts)) (n :: ns))
    (ht : n.spelling = t) : firstPiece d beforeAll (lines (t :: ts)) = some n := by
  obtain ⟨c, rest, hc, hgap⟩ := isGap_of_pieces h
  have hline : lines (t :: ts) = c :: (rest ++ moreLines ts) := by
    rw [lines_cons, ← ht, hc, List.cons_append]
  rw [hline] at h ⊢
  cases h with
  | blank hblank =>
      rw [hgap] at hblank
      cases hblank
  | next hfirst => exact hfirst

end

/-! ## §2. Lines that are read as they are. -/

section
variable {d : Dialect}

/-- **Lines are read as they are exactly if each is in its place.** -/
theorem exists_pieces_iff :
    ∀ ts before : List String,
      (∃ ns, Pieces d (onlyComments d before ts) (lines ts) ns ∧ (∀ n ∈ ns, n.isSettled = true)
          ∧ ns.map Node.spelling = ts)
        ↔ ∀ u t v, ts = u ++ t :: v → InPlace d (before ++ u) t v := by
  intro ts
  induction ts with
  | nil =>
      intro before
      have hnil : lines [] = [] := by simp [lines]
      constructor
      · intro _ u t v hcut
        exact absurd hcut.symm (by simp)
      · intro _
        exact ⟨[], by rw [hnil]; exact .done, fun _ h => absurd h List.not_mem_nil, rfl⟩
  | cons t ts ih =>
      intro before
      constructor
      · rintro ⟨ns, h, hsettled, htexts⟩
        cases ns with
        | nil => cases htexts
        | cons n ns =>
            obtain ⟨ht, hts⟩ := List.cons.inj htexts
            obtain ⟨hn, hsettled⟩ := List.forall_mem_cons.1 hsettled
            have hfirst := firstPiece_of_pieces h ht
            obtain ⟨ns', hns', hrest⟩ := (pieces_lines_iff hfirst ht).1 h
            obtain ⟨-, rfl⟩ := List.cons.inj hns'
            rw [← onlyComments_concat] at hrest
            have hmore := (ih _).1 ⟨ns, hrest, hsettled, hts⟩
            intro u t' v hcut
            cases u with
            | nil =>
                obtain ⟨rfl, rfl⟩ := List.cons.inj hcut
                rw [List.append_nil]
                exact ⟨n, hfirst, ht, hn⟩
            | cons e u =>
                rw [List.cons_append] at hcut
                obtain ⟨rfl, hrest⟩ := List.cons.inj hcut
                have hplace := hmore u t' v hrest
                rwa [List.append_assoc] at hplace
      · intro hplaces
        obtain ⟨n, hfirst, ht, hn⟩ := hplaces [] t ts rfl
        rw [List.append_nil] at hfirst
        obtain ⟨ns, hrest, hsettled, htexts⟩ := (ih (before ++ [t])).2 fun u t' v hcut => by
          rw [List.append_assoc]
          exact hplaces (t :: u) t' v (by rw [hcut]; rfl)
        rw [onlyComments_concat] at hrest
        exact ⟨n :: ns, (pieces_lines_iff hfirst ht).2 ⟨ns, rfl, hrest⟩,
          List.forall_mem_cons.2 ⟨hn, hsettled⟩, by rw [List.map_cons, ht, htexts]⟩

/-- **A text is a module with its lines as statements exactly if each line is in its
place.** -/
theorem exists_ofSource_iff {text : String} {ts : List String} (htext : text.toList = lines ts) :
    (∃ q, Program.ofSource d text = .ok q ∧ q.body.map Statement.spelling = ts)
      ↔ ∀ u t v, ts = u ++ t :: v → InPlace d u t v := by
  have hspelling : ∀ ns : List Node,
      (ns.map Statement.ofNode).map Statement.spelling = ns.map Node.spelling := by
    intro ns
    rw [List.map_map]
    exact List.map_congr_left fun n _ => Statement.spelling_ofNode n
  refine Iff.trans ?_ (exists_pieces_iff ts [])
  constructor
  · rintro ⟨q, hq, htexts⟩
    obtain ⟨ns, hpieces, hsettled, rfl⟩ :=
      Program.ofSource?_eq_some_iff.1 (Program.ofSource_eq_ok_iff.1 hq)
    rw [htext] at hpieces
    exact ⟨ns, hpieces, hsettled, by rw [← htexts, ← hspelling]⟩
  · rintro ⟨ns, hpieces, hsettled, htexts⟩
    have hpieces' : Pieces d true text.toList ns := by rwa [htext]
    exact ⟨_, Program.ofSource_eq_ok_iff.2
      (Program.ofSource?_eq_some_iff.2 ⟨ns, hpieces', hsettled, rfl⟩), by rw [hspelling, htexts]⟩

end

/-! ## §3. Lines that are always in their places. -/

/-- The signs that open or close a comment of markup. -/
def markupSigns : List (List Char) := [['<', '!', '-', '-'], ['-', '-', '>']]

/-- A comment between signs, or one of a markup sign up to the end of its line. -/
theorem commentHere?_eq_some_iff {m : Bool} {s : List Char} {kind : String} {k : Nat} :
    commentHere? m s = some (kind, k)
      ↔ kind = "comment" ∧ comment.longest? s = some k
        ∨ kind = "html_comment" ∧ m = true ∧ (∃ sign ∈ markupSigns, sign <+: s)
          ∧ (s.takeWhile fun c => !Text.isLineEnd c).length = k := by
  have hsigns : (['<', '!', '-', '-'].isPrefixOf s || ['-', '-', '>'].isPrefixOf s) = true
      ↔ ∃ sign ∈ markupSigns, sign <+: s := by
    simp [markupSigns]
  unfold commentHere? markupComment?
  constructor
  · intro h
    cases hlongest : comment.longest? s with
    | some n =>
        rw [hlongest] at h
        cases h
        exact .inl ⟨rfl, rfl⟩
    | none =>
        rw [hlongest] at h
        simp only at h
        split at h
        · next hm =>
            obtain ⟨n, hn, hpair⟩ := Option.map_eq_some_iff.1 h
            cases hpair
            split at hn
            · next hsign => exact .inr ⟨rfl, hm, hsigns.1 hsign, Option.some.inj hn⟩
            · cases hn
        · cases h
  · rintro (⟨rfl, hlongest⟩ | ⟨rfl, rfl, hsign, rfl⟩)
    · rw [hlongest]
    · -- no such sign starts with a slash
      have hnone : comment.longest? s = none := by
        obtain ⟨sign, hmem, rest, rfl⟩ := hsign
        have hall : ∀ sign ∈ markupSigns, comment.longest? (sign ++ rest) = none := by
          simp [markupSigns, Scanner.longest?, Scanner.longestFrom, comment]
        exact hall sign hmem
      rw [hnone, if_pos (hsigns.2 hsign)]
      rfl

/-- A comment that is all of a line is a comment in front of other lines, too. -/
theorem commentHere?_append {m : Bool} {t rest : List Char} {kind : String}
    (h : commentHere? m t = some (kind, t.length)) (hrest : ∀ c ∈ rest.head?, c = '\n') :
    commentHere? m (t ++ rest) = some (kind, t.length) := by
  rw [commentHere?_eq_some_iff] at h ⊢
  rcases h with ⟨rfl, hlongest⟩ | ⟨rfl, hm, ⟨sign, hmem, hsign⟩, hlength⟩
  · refine .inl ⟨rfl, ?_⟩
    obtain ⟨-, state, hrun, hacc⟩ := Scanner.run_of_longest? hlongest
    rw [List.take_length] at hrun
    -- a line end goes on with no comment that is complete
    have hstop : comment.Stops state rest := by
      intro c hc
      obtain rfl := hrest c hc
      cases state with
      | line | closed => rfl
      | start | slash | block | star => cases hacc
    exact Scanner.longest?_append hrun hacc hstop
  · refine .inr ⟨rfl, hm, ⟨sign, hmem, hsign.trans (List.prefix_append t rest)⟩, ?_⟩
    have hend : rest.takeWhile (fun c => !Text.isLineEnd c) = [] := by
      cases rest with
      | nil => rfl
      | cons c rest =>
          obtain rfl := hrest c rfl
          rfl
    rw [List.takeWhile_append, if_pos hlength, hend, List.append_nil]

/-- The text of a comment is a comment by itself. -/
theorem commentHere?_take {m : Bool} {s : List Char} {kind : String} {k : Nat}
    (h : commentHere? m s = some (kind, k)) :
    commentHere? m (s.take k) = some (kind, (s.take k).length) := by
  rw [commentHere?_eq_some_iff] at h ⊢
  rcases h with ⟨rfl, hlongest⟩ | ⟨rfl, hm, ⟨sign, hmem, rest, rfl⟩, rfl⟩
  · refine .inl ⟨rfl, ?_⟩
    rw [Scanner.longest?_take hlongest (Nat.le_refl k),
      List.length_take_of_le (Scanner.run_of_longest? hlongest).1]
  · have htake : ∀ t : List Char, t.take (t.takeWhile fun c => !Text.isLineEnd c).length
        = t.takeWhile fun c => !Text.isLineEnd c :=
      fun t => (List.prefix_iff_eq_take.1 (List.takeWhile_prefix _)).symm
    have hall : ∀ sign ∈ markupSigns, sign.all (fun c => !Text.isLineEnd c) = true := by decide
    refine .inr ⟨rfl, hm, ⟨sign, hmem, ?_⟩, ?_⟩
    · rw [htake, List.takeWhile_append_of_pos (List.all_eq_true.1 (hall sign hmem))]
      exact List.prefix_append _ _
    · rw [htake, List.takeWhile_takeWhile]
      simp only [and_self, Bool.decide_eq_true]

/-- The node is a comment. -/
def isCommentKind (kind : String) : Bool := kind == "comment" || kind == "html_comment"

/-- A comment that was read is a comment by itself. -/
theorem Grammar.Pieces.eq_comment {d : Dialect} {before : Bool} {s : List Char} {ns : List Node}
    (h : Pieces d before s ns) {n : Node} (hn : n ∈ ns) (hkind : isCommentKind n.kind = true) :
    ∃ kind text, n = .token kind text
      ∧ commentHere? (!d.hasTypes) text.toList = some (kind, text.toList.length) := by
  induction h with
  | done => cases hn
  | blank _ _ ih => exact ih hn
  | @next before s m ns hfirst _ ih =>
      rcases List.mem_cons.1 hn with rfl | hn
      swap
      · exact ih hn
      rcases firstPiece_cases hfirst with
        ⟨kind, k, hcomment, rfl⟩ | ⟨hat, ⟨k, -, -, rfl⟩ | ⟨tail, rest, s', hout, -⟩⟩
      · refine ⟨kind, _, rfl, ?_⟩
        rw [String.toList_ofList]
        exact commentHere?_take hcomment
      · have hhash : isCommentKind "hash_bang_line" = true := hkind
        exact absurd hhash (by decide)
      · -- no rule of statements reads a node of this kind
        rw [readStatement_deep hat] at hout
        obtain ⟨r, hr, hread⟩ := reads_of_oneOf (List.cons_ne_nil _ _)
          (reads_of_step (fun name => reads_of_read rule _ name) _ _ _ _ _ _ hout)
        have hall : statementRules.all
            (Rule.one (· = .block) fun kind => !isCommentKind kind) = true := by
          decide +kernel
        have hgood := kind_of_reads_one rfl (List.all_eq_true.1 hall r hr) hat hread
        rw [hkind] at hgood
        cases hgood

/-- The line is a comment, or an import that a split writes, under names that are
words: of one member by default, or of the types that stay behind. -/
inductive IsSteady (d : Dialect) : String → Prop where
  | comment {t kind : String}
      (h : commentHere? (!d.hasTypes) t.toList = some (kind, t.toList.length)) : IsSteady d t
  | member (m : DirectImport) (hname : IsWord m.name.toList) : IsSteady d m.statement.spelling
  | types {x : Specifier} {types : List Specifier} (hd : d.hasTypes = true) (hx : IsWordType x)
      (hwords : ∀ y ∈ types, IsWordType y) (path : String) :
      IsSteady d (ImportDecl.spelling { specifiers := x :: types, source := path })

/-- What is read as an import up to the end of its line is in its place. -/
theorem inPlace_of_import {d : Dialect} {t : String} {more : List Char} (before after : List String)
    (htext : t.toList ++ moreLines after = "import".toList ++ (' ' :: more))
    (himport : ∀ depth, ∃ n, n.isSettled = true
      ∧ step (read rule (depth + 1)) importStatement { dialect := d } []
        ("import".toList ++ (' ' :: more)) = .done [.node n] (moreLines after)) :
    InPlace d before t after := by
  unfold InPlace
  rw [lines_cons]
  obtain ⟨n, hsettled, hstep⟩ := himport (40 * (t.toList ++ moreLines after).length + 5)
  rw [← htext] at hstep
  obtain ⟨hfirst, hspelling⟩ :=
    firstPiece_of_import (onlyComments d before (t :: after)) htext hstep
  exact ⟨n, hfirst, String.toList_inj.1 hspelling, hsettled⟩

/-- **What a split writes under words is in its place wherever it stands**, and so
are comments. -/
theorem IsSteady.inPlace {d : Dialect} {t : String} (h : IsSteady d t)
    (before after : List String) : InPlace d before t after := by
  cases h with
  | comment hcomment =>
      unfold InPlace
      have hrest : ∀ c ∈ (moreLines after).head?, c = '\n' := by
        cases after with
        | nil => exact fun c hc => by cases hc
        | cons u after => exact fun c hc => (Option.some.inj hc).symm
      rw [lines_cons]
      refine ⟨_, firstPiece_of_comment (commentHere?_append hcomment hrest), ?_, rfl⟩
      rw [List.take_left]
      simp only [Node.spelling, String.ofList_toList]
  | member m hname =>
      exact inPlace_of_import before after (toList_spelling_statement m (moreLines after))
        fun depth => ⟨_, rfl, step_importStatement hname m.path (moreLines after)⟩
  | types hd hx hwords path =>
      refine inPlace_of_import before after (toList_spelling_leftTypes hx hwords path _)
        fun depth => ?_
      obtain ⟨n, hsettled, hstep⟩ :=
        step_typesStatement (c := { dialect := d }) hd hx hwords path (moreLines after)
      exact ⟨n, hsettled, hstep []⟩

/-- The lines are in their places in front of those that follow them.  Only those
need be looked at that are not always there. -/
def AllInPlace (d : Dialect) (ts after : List String) : Prop :=
  ∀ u t v, ts = u ++ t :: v → ¬ IsSteady d t → InPlace d u t (v ++ after)

theorem allInPlace_iff {d : Dialect} {ts after : List String} :
    AllInPlace d ts after ↔ ∀ u t v, ts = u ++ t :: v → InPlace d u t (v ++ after) := by
  constructor
  · intro h u t v hcut
    by_cases hsteady : IsSteady d t
    · exact hsteady.inPlace u (v ++ after)
    · exact h u t v hcut hsteady
  · exact fun h u t v hcut _ => h u t v hcut

/-- **A statement that stands alone is in its place wherever it stands.** -/
theorem inPlace_of_standsAlone {d : Dialect} {t : String} (h : standsAlone d t = true)
    (before after : List String) : InPlace d before t after := by
  obtain ⟨hdecided, hfirst⟩ := Bool.and_eq_true _ _ ▸ h
  cases hn : firstPiece d false t.toList with
  | none =>
      rw [hn] at hfirst
      cases hfirst
  | some n =>
      rw [hn] at hfirst
      obtain ⟨hspelling, hsettled⟩ := Bool.and_eq_true _ _ ▸ hfirst
      refine ⟨n, ?_, eq_of_beq hspelling, hsettled⟩
      rw [lines_cons, firstPiece_append hdecided, hn]
      rfl

/-! ## §4. Split texts. -/

section
variable {d : Dialect} {source : String}

/-- What a split prints are the lines of its statements. -/
theorem splitText_eq_ok {w : WatchList} {p : Program} (hsource : Program.ofSource d source = .ok p) :
    splitText w d source = .ok (p.split w).spelling := by
  unfold splitText
  rw [hsource]

theorem toList_splitText {w : WatchList} {out : String} {p : Program}
    (hsource : Program.ofSource d source = .ok p) (hsplit : splitText w d source = .ok out) :
    out.toList = lines ((p.split w).body.map Statement.spelling) := by
  rw [splitText_eq_ok hsource] at hsplit
  cases hsplit
  rfl

end

section
variable {w : WatchList} {d : Dialect} {source out : String} {p q : Program}

/-- The statement of a split module is one that need not be read again as it is: how it
is read depends on its text, and on the lines behind it. -/
inductive Program.IsOpen (w : WatchList) (p : Program) : Statement → Prop where
  /-- The import for an access on a handle, if the name of its module starts no word. -/
  | access {i : ImportDecl} (hi : i ∈ p.imports) (hw : w.watches i.source = true)
      (hhandles : i.handles ≠ []) (hname : ¬ StartsNames i.source) (member : String) :
      IsOpen w p (DirectImport.ofAccess i.source member).statement
  /-- The types that stay of an import, if one of them was asked for by a string that is
  no word. -/
  | types {i : ImportDecl} (hi : i ∈ p.imports) (hw : w.watches i.source = true)
      {exported bound : String} (hx : .typeOnly (some exported) (some bound) ∈ i.types)
      (hstring : ¬ IsWord exported.toList) :
      IsOpen w p (.importing { specifiers := i.types, source := i.source })
  /-- An import that is not watched, as it was written. -/
  | unwatched {i : ImportDecl} (hi : i ∈ p.imports) (hw : w.watches i.source = false) :
      IsOpen w p (.importing i)
  /-- Another statement than a comment, with its accesses on handles rewritten. -/
  | other {before rest : List Statement} {n : Node} (hbody : p.body = before ++ .other n :: rest)
      (hkind : isCommentKind n.kind = false) : IsOpen w p (.other (n.direct (scopeAt w before)))

/-- A comment of a module is steady; nothing is rewritten in it. -/
theorem isSteady_of_comment (hsource : Program.ofSource d source = .ok p) {n : Node}
    (hn : .other n ∈ p.body) (hkind : isCommentKind n.kind = true) (scope : Scope) :
    IsSteady d (n.direct scope).spelling := by
  obtain ⟨ns, hpieces, -, rfl⟩ :=
    Program.ofSource?_eq_some_iff.1 (Program.ofSource_eq_ok_iff.1 hsource)
  obtain ⟨m, hm, hmn⟩ := List.mem_map.1 hn
  cases hdecl : ImportDecl.ofNode? m with
  | some decl =>
      rw [Statement.ofNode_of_some hdecl] at hmn
      cases hmn
  | none =>
      rw [Statement.ofNode_of_none hdecl] at hmn
      cases hmn
      obtain ⟨kind, text, rfl, htext⟩ := hpieces.eq_comment hm hkind
      exact .comment htext

/-- The types that stay of an import are steady under words, and open otherwise. -/
theorem isSteady_or_isOpen_types (hsource : Program.ofSource d source = .ok p) {i : ImportDecl}
    (hi : i ∈ p.imports) (hw : w.watches i.source = true) (hne : i.types ≠ []) :
    IsSteady d (ImportDecl.spelling { specifiers := i.types, source := i.source })
      ∨ p.IsOpen w (.importing { specifiers := i.types, source := i.source }) := by
  have htypes : d.hasTypes = true := by
    cases hd : d.hasTypes with
    | true => rfl
    | false => exact absurd (Program.types_eq_nil hsource hd hi) hne
  by_cases hwords : ∀ x ∈ i.types, IsWordType x
  · obtain ⟨x, types, heq⟩ := List.exists_cons_of_ne_nil hne
    rw [heq] at hwords ⊢
    obtain ⟨hx, hmore⟩ := List.forall_mem_cons.1 hwords
    exact .inl (.types htypes hx hmore i.source)
  · simp only [not_forall] at hwords
    obtain ⟨x, hx, hnot⟩ := hwords
    obtain ⟨exported, bound, rfl, hstring⟩ :=
      (Program.isWordType_of_mem_types hsource hi hx).resolve_left hnot
    exact .inr (.types hi hw hx hstring)

/-- **Every statement of a split module is steady or open.** -/
theorem isSteady_or_isOpen (hsource : Program.ofSource d source = .ok p) {s : Statement}
    (hs : s ∈ (p.split w).body) : IsSteady d s.spelling ∨ p.IsOpen w s := by
  rw [(p.split_body_perm w).mem_iff, List.mem_append] at hs
  rcases hs with hinserted | hkept
  · obtain ⟨m, hm, rfl⟩ := List.mem_map.1 hinserted
    rcases Program.isWord_of_mem_inserted hsource (Program.mem_inserted_iff.2 hm) with
      hword | ⟨i, hi, hw, hhandles, hname, member, rfl⟩
    · exact .inl (.member m hword)
    · exact .inr (.access hi hw hhandles hname member)
  · obtain ⟨before, t, rest, hbody, hst⟩ := Program.mem_inScope_iff.1 hkept
    have ht : t ∈ p.body := by simp [hbody]
    cases t with
    | importing i =>
        have hi : i ∈ p.imports := List.mem_filterMap.2 ⟨_, ht, rfl⟩
        rcases Statement.mem_kept_importing_iff.1 hst with ⟨hw, rfl⟩ | ⟨hw, hne, rfl⟩
        · exact .inr (.unwatched hi hw)
        · exact isSteady_or_isOpen_types hsource hi hw hne
    | other n =>
        obtain rfl : s = .other (n.direct (scopeAt w before)) := List.mem_singleton.1 hst
        cases hkind : isCommentKind n.kind with
        | true => exact .inl (isSteady_of_comment hsource ht hkind (scopeAt w before))
        | false => exact .inr (.other hbody hkind)

/-- A split module, and the text `out` that it is printed as, read again. -/
structure Program.ReadsAgain (w : WatchList) (d : Dialect) (p : Program) (out : String) : Prop where
  /-- Comments are steady, imports that are written under words are, and so all but the
  open statements. -/
  steady_or_open : ∀ s ∈ (p.split w).body, IsSteady d s.spelling ∨ p.IsOpen w s
  /-- Steady lines, and lines that stand alone, are in their places wherever they stand. -/
  inPlace : ∀ t, IsSteady d t ∨ standsAlone d t = true →
    ∀ before after, InPlace d before t after
  /-- So the text is a module with the statements that were printed exactly if every
  open statement that does not stand alone is in its place. -/
  reads_iff : (∃ q, Program.ofSource d out = .ok q
      ∧ q.body.map Statement.spelling = (p.split w).body.map Statement.spelling)
    ↔ ∀ u s v, (p.split w).body = u ++ s :: v → p.IsOpen w s → standsAlone d s.spelling = false →
      InPlace d (u.map Statement.spelling) s.spelling (v.map Statement.spelling)

/-- A module with an access on a handle, and its split. -/
def accessSource : String := "import _ from \"lodash\";\n_.map(a);"

def accessText : String := "import lodash_map from \"lodash/map\";\nlodash_map(a);"

/-- Both are modules, with the same lines. -/
theorem ofSource_access :
    ∃ p q, Program.ofSource .js accessSource = .ok p
      ∧ splitText .standard .js accessSource = .ok accessText
      ∧ Program.ofSource .js accessText = .ok q
      ∧ q.body.map Statement.spelling = (p.split .standard).body.map Statement.spelling := by
  have hruns : (Program.ofSource? .js accessSource).map
        (fun p => (p.split .standard).body.map Statement.spelling)
        = some ["import lodash_map from \"lodash/map\";", "lodash_map(a);"]
      ∧ (Program.ofSource? .js accessText).map (fun q => q.body.map Statement.spelling)
        = some ["import lodash_map from \"lodash/map\";", "lodash_map(a);"] := by
    decide +kernel
  obtain ⟨p, hp, hlines⟩ := Option.map_eq_some_iff.1 hruns.1
  obtain ⟨q, hq, htexts⟩ := Option.map_eq_some_iff.1 hruns.2
  have hsource := Program.ofSource_eq_ok_iff.2 hp
  refine ⟨p, q, hsource, ?_, Program.ofSource_eq_ok_iff.2 hq, htexts.trans hlines.symm⟩
  rw [splitText_eq_ok hsource]
  unfold Program.spelling
  rw [hlines]
  exact congrArg Except.ok (by decide)

/-- **The statements that are read from a split text are those that were printed,
exactly if each line is in its place.** -/
theorem map_spelling_splitText_iff (hsource : Program.ofSource d source = .ok p)
    (hsplit : splitText w d source = .ok out) (hread : Program.ofSource d out = .ok q) :
    q.body.map Statement.spelling = (p.split w).body.map Statement.spelling
      ↔ AllInPlace d ((p.split w).body.map Statement.spelling) [] := by
  have hexists := exists_ofSource_iff (d := d) (toList_splitText hsource hsplit)
  rw [allInPlace_iff]
  simp only [List.append_nil]
  rw [← hexists]
  -- the text is read in one way
  constructor
  · exact fun htexts => ⟨q, hread, htexts⟩
  · rintro ⟨q', hq', htexts⟩
    obtain rfl := Except.ok.inj (hq'.symm.trans hread)
    exact htexts

theorem map_spelling_splitText_iff_access :
    ∃ p q, Program.ofSource .js accessSource = .ok p
      ∧ splitText .standard .js accessSource = .ok accessText
      ∧ Program.ofSource .js accessText = .ok q
      ∧ AllInPlace .js ((p.split .standard).body.map Statement.spelling) [] := by
  obtain ⟨p, q, hsource, hsplit, hread, hsame⟩ := ofSource_access
  exact ⟨p, q, hsource, hsplit, hread, (map_spelling_splitText_iff hsource hsplit hread).1 hsame⟩

/-- A statement that ended before an import need not end before what follows it
then: `f`, `import _ from "lodash";` and `(b)` become the call `f` of `b`. -/
theorem splitText_joins_statements :
    ¬ ∀ (w : WatchList) (d : Dialect) (source out : String) (p q : Program),
      Program.ofSource d source = .ok p → splitText w d source = .ok out →
      Program.ofSource d out = .ok q →
      q.body.map Statement.spelling = (p.split w).body.map Statement.spelling := by
  intro h
  have hruns : (Program.ofSource? .js "f\nimport _ from \"lodash\";\n(b)").map
        (fun p => (p.split .standard).body.map Statement.spelling) = some ["f", "(b)"]
      ∧ (Program.ofSource? .js "f\n(b)").map (fun q => q.body.map Statement.spelling)
        = some ["f\n(b)"] := by
    decide +kernel
  obtain ⟨p, hp, hlines⟩ := Option.map_eq_some_iff.1 hruns.1
  obtain ⟨q, hq, htexts⟩ := Option.map_eq_some_iff.1 hruns.2
  have hsource := Program.ofSource_eq_ok_iff.2 hp
  have hsplit : splitText .standard .js "f\nimport _ from \"lodash\";\n(b)" = .ok "f\n(b)" := by
    rw [splitText_eq_ok hsource]
    unfold Program.spelling
    rw [hlines]
    exact congrArg Except.ok (by decide)
  have hsame := h _ _ _ _ p q hsource hsplit (Program.ofSource_eq_ok_iff.2 hq)
  rw [hlines, htexts] at hsame
  exact absurd hsame (by decide)

end

end ImportSplit
