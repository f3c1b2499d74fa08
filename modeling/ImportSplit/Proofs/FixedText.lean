/-
  ImportSplit.Proofs.FixedText
  ────────────────────────────────
  **TEXTS THAT A SPLIT LEAVES ALONE.**

  A text is its own split exactly if the module that it is prints back to it
  and imports no watched module (`splitText_eq_iff`).  One direction is easy.
  For the other let the text of a split be the text it was made from:

    1. no point went away, so no access was rewritten (`split_body_of_amount_point`);
    2. the prologue stands at the front of both, so it can be left out;
    3. then an inserted import stands at the front, and is read as itself: the
       texts can be followed import after import, and no named member is ever
       met (`members_of_lines`);
    4. so nothing was inserted, no import went away, and a type import that was
       printed would not be read as a declaration (`unwatched_of_lines`).

  A split need not leave its own text alone: a named member `fp` of `lodash`
  is imported from `lodash/fp` afterwards, and that is watched.
-/
import ImportSplit.Proofs.Points
import ImportSplit.Proofs.ReadImport
import ImportSplit.Split.Source

namespace ImportSplit

/-! ## §1. Lines. -/

/-- The texts, each on a line of its own. -/
def lines (l : List String) : List Char := (String.intercalate "\n" l).toList

/-- The lines behind another line. -/
def moreLines : List String → List Char
  | [] => []
  | s :: l => '\n' :: lines (s :: l)

theorem lines_cons (s : String) (l : List String) : lines (s :: l) = s.toList ++ moreLines l := by
  cases l with
  | nil => simp [lines, moreLines]
  | cons t l =>
      unfold moreLines lines
      rw [String.intercalate_cons_cons, String.toList_append, String.toList_append,
        List.append_assoc]
      rfl

namespace Grammar

variable {d : Dialect} {s rest : List Char} {n : Node} {ns : List Node}

/-- What is read at a place does not start with a blank. -/
theorem ReadAt.isGap_head? (h : ReadAt d s n) (hs : s = n.spelling.toList ++ rest) :
    ∀ e ∈ s.head?, Text.isGap e = false := by
  cases h with
  | @remark kind text hkind hstarts =>
      intro e he
      obtain ⟨k, hk, hmem⟩ := hstarts hkind
      rw [hs, Node.spelling, List.head?_append, Option.mem_def.1 hk] at he
      obtain rfl : k = e := Option.some.inj he
      exact (of_mem_startingChars hmem).1
  | statement hat => exact hat.1

namespace Segments

/-- A blank before a row of pieces can be left out. -/
theorem of_blank {e : Char} (he : Text.isGap e = true) (h : Segments d (e :: s) ns) :
    Segments d s ns := by
  generalize htext : e :: s = u at h
  cases h with
  | done hblank =>
      rw [← htext] at hblank
      exact .done fun k hk => hblank k (List.mem_cons_of_mem _ hk)
  | @next blanks rest n ns hblank hne hread hrest =>
      cases blanks with
      | nil =>
          -- the node would start with the blank
          have hhead := hread.isGap_head? rfl e (by
            rw [List.nil_append] at htext
            rw [← htext]
            rfl)
          rw [he] at hhead
          cases hhead
      | cons b blanks =>
          obtain ⟨-, rfl⟩ := List.cons.inj htext
          exact .next (fun k hk => hblank k (List.mem_cons_of_mem _ hk)) hne hread hrest

theorem of_moreLines {l : List String} (h : Segments d (moreLines l) ns) :
    Segments d (lines l) ns := by
  cases l with
  | nil => simpa [lines, moreLines] using h
  | cons t l => exact of_blank (by decide) h

/-- The text of the first node stands at the front. -/
theorem of_node (h : Segments d (n.spelling.toList ++ s) (n :: ns)) : Segments d s ns := by
  generalize htext : n.spelling.toList ++ s = u at h
  cases h with
  | @next blanks rest _ _ hblank hne hread hrest =>
      cases blanks with
      | nil => rwa [List.append_cancel_left htext]
      | cons b blanks =>
          -- the text of the node would start with a blank
          exfalso
          obtain ⟨k, t, hk⟩ := List.exists_cons_of_ne_nil hne
          rw [hk] at htext hread
          obtain ⟨rfl, -⟩ := List.cons.inj htext
          have hat : k :: t ++ rest = n.spelling.toList ++ rest := by rw [hk]
          have hhead := hread.isGap_head? hat k rfl
          rw [hblank k List.mem_cons_self] at hhead
          cases hhead

/-- Blanks aside, the text is the texts of the nodes. -/
theorem count_eq (h : Segments d s ns) {e : Char} (he : Text.isGap e = false) :
    s.count e = (ns.map fun n => amount e n.spelling).sum := by
  have hblanks : ∀ b : List Char, (∀ k ∈ b, Text.isGap k = true) → b.count e = 0 := by
    intro b hb
    refine List.count_eq_zero_of_not_mem fun hmem => ?_
    rw [hb e hmem] at he
    cases he
  induction h with
  | done hblank => exact hblanks _ hblank
  | next hblank hne hread hrest ih =>
      rw [List.count_append, List.count_append, hblanks _ hblank, ih, List.map_cons,
        List.sum_cons, Nat.zero_add]
      rfl

end Segments

end Grammar

/-! ## §2. Lines without inserted imports. -/

namespace Statement

variable {d : Dialect} {n : Node} {ns : List Node}

/-- What stays of a statement that was read, where no access is rewritten. -/
def leftOf (n : Node) : List Statement := (ofNode n).kept .standard Scope.none

/-- A statement that is no watched import stays, with the text of its node. -/
theorem leftOf_of_unwatched
    (h : ∀ decl, ImportDecl.ofNode? n = some decl → WatchList.standard.watches decl.source = false) :
    leftOf n = [ofNode n] := by
  unfold leftOf
  cases hdecl : ImportDecl.ofNode? n with
  | none =>
      rw [ofNode_of_none hdecl]
      show [other (n.direct Scope.none)] = [other n]
      have hnone : n.direct Scope.none = n := n.direct_of_no_handles fun _ => rfl
      rw [hnone]
  | some decl =>
      rw [ofNode_of_some hdecl]
      exact if_neg (by rw [h decl hdecl]; exact Bool.false_ne_true)

/-- Of a watched import its types stay, if it has any. -/
theorem leftOf_of_watched {decl : ImportDecl} (hdecl : ImportDecl.ofNode? n = some decl)
    (hw : WatchList.standard.watches decl.source = true) :
    leftOf n = if decl.types.isEmpty then []
      else [importing { specifiers := decl.types, source := decl.source }] := by
  unfold leftOf
  rw [ofNode_of_some hdecl]
  exact if_pos hw

end Statement

/-- The lines of what stays of the statements. -/
def leftLines (ns : List Node) : List String :=
  (ns.flatMap Statement.leftOf).map Statement.spelling

theorem leftLines_cons (n : Node) (ns : List Node) :
    leftLines (n :: ns) = (Statement.leftOf n).map Statement.spelling ++ leftLines ns := by
  unfold leftLines
  rw [List.flatMap_cons, List.map_append]

/-- **Where what stays is all of the text, no import went away**: it would have
taken a letter along. -/
theorem goesAway_of_lines {d : Dialect} {ns : List Node}
    (h : Grammar.Segments d (lines (leftLines ns)) ns) :
    ∀ n ∈ ns, (Statement.ofNode n).goesAway .standard = false := by
  -- letters on both sides: the text is what stays, and it is the nodes
  have hletter : Unwritten 'l' := .inr rfl
  have hline : amount 'l' "\n" = 0 := by decide
  have htext : (lines (leftLines ns)).count 'l'
      = ((ns.flatMap Statement.leftOf).map fun s => amount 'l' s.spelling).sum := by
    have hsum := amount_intercalate hline (leftLines ns)
    unfold leftLines at hsum ⊢
    rw [List.map_map] at hsum
    exact hsum
  have hnodes := h.count_eq (e := 'l') (by decide)
  rw [htext, sum_flatMap] at hnodes
  have hle := sum_add_le (l := ns) (f := fun n =>
      ((Statement.leftOf n).map fun s => amount 'l' s.spelling).sum)
    (g := fun n => if (Statement.ofNode n).goesAway .standard then 1 else 0)
    (h := fun n => amount 'l' n.spelling) fun n _ => by
      refine Statement.amount_letter_le ?_
      cases Statement.ofNode n with
      | importing decl => rfl
      | other m => exact m.directImports_of_no_handles fun _ => rfl
  -- the two sums agree, so nothing went away
  have hzero : (ns.map fun n => if (Statement.ofNode n).goesAway .standard then 1 else 0).sum = 0 := by
    omega
  intro n hn
  have hn0 := List.sum_eq_zero_iff_forall_eq_nat.1 hzero _ (List.mem_map_of_mem hn)
  cases hgone : (Statement.ofNode n).goesAway .standard with
  | false => rfl
  | true => simp [hgone] at hn0

/-- How a declaration of types starts. -/
theorem ImportDecl.toList_spelling_types {types : List Specifier} (source : String)
    (hne : types ≠ []) (hfull : ∀ x ∈ types, x.isFullType = true) :
    ∃ more, (ImportDecl.spelling { specifiers := types, source := source }).toList
      = "import".toList ++ (' ' :: ("type".toList ++ (' ' :: '\x7b' :: more))) := by
  rw [ImportDecl.spelling_of_full_types source hne hfull]
  simp only [String.toList_append, List.append_assoc]
  exact ⟨_, rfl⟩

/-- The first statement is no watched import then: of one, types would stay, and
those are not read as a declaration. -/
theorem unwatched_first_of_lines {d : Dialect} {n : Node} {ns : List Node}
    (h : Grammar.Segments d (lines (leftLines (n :: ns))) (n :: ns))
    (hstays : (Statement.ofNode n).goesAway .standard = false) {decl : ImportDecl}
    (hdecl : ImportDecl.ofNode? n = some decl) :
    WatchList.standard.watches decl.source = false := by
  refine Bool.eq_false_iff.2 fun hw => ?_
  have hempty : decl.types.isEmpty = false := by
    rw [Statement.ofNode_of_some hdecl] at hstays
    have hgone : (WatchList.standard.watches decl.source && decl.types.isEmpty) = false := hstays
    rwa [hw, Bool.true_and] at hgone
  have hne : decl.types ≠ [] := by simpa using hempty
  have hfull : ∀ x ∈ decl.types, x.isFullType = true := fun x hx => (List.mem_filter.1 hx).2
  obtain ⟨more, htext⟩ := ImportDecl.toList_spelling_types decl.source hne hfull
  have hlines : leftLines (n :: ns)
      = ImportDecl.spelling { specifiers := decl.types, source := decl.source }
        :: leftLines ns := by
    rw [leftLines_cons, Statement.leftOf_of_watched hdecl hw, hempty]
    rfl
  rw [hlines, lines_cons, htext] at h
  obtain ⟨m, ns', rest, hcons, -, hread, -⟩ := h.of_head? rfl (by decide)
  obtain ⟨rfl, -⟩ := List.cons.inj hcons
  simp only [List.append_assoc, List.cons_append] at hread
  rw [hread.ofNode?_of_types] at hdecl
  cases hdecl

/-- **Where what stays is all of the text, no import is watched.**  The first
statement stays as it was read, so the rest of the text is what stays of the
others. -/
theorem unwatched_of_lines {d : Dialect} :
    ∀ {ns : List Node}, Grammar.Segments d (lines (leftLines ns)) ns →
      (∀ n ∈ ns, (Statement.ofNode n).goesAway .standard = false) →
      ∀ n ∈ ns, ∀ decl, ImportDecl.ofNode? n = some decl →
        WatchList.standard.watches decl.source = false := by
  intro ns
  induction ns with
  | nil => exact fun _ _ _ h => absurd h List.not_mem_nil
  | cons n ns ih =>
      intro h hstays
      have hfirst : ∀ decl, ImportDecl.ofNode? n = some decl →
          WatchList.standard.watches decl.source = false :=
        fun _ hdecl => unwatched_first_of_lines h (hstays n List.mem_cons_self) hdecl
      have hrest : Grammar.Segments d (lines (leftLines ns)) ns := by
        have hlines : leftLines (n :: ns) = n.spelling :: leftLines ns := by
          rw [leftLines_cons, Statement.leftOf_of_unwatched hfirst, List.map_cons, List.map_nil,
            Statement.spelling_ofNode]
          rfl
        rw [hlines, lines_cons] at h
        exact h.of_node.of_moreLines
      intro m hm decl hdecl
      rcases List.mem_cons.1 hm with rfl | hm
      · exact hfirst decl hdecl
      · exact ih hrest (fun k hk => hstays k (List.mem_cons_of_mem _ hk)) m hm decl hdecl

/-! ## §3. Lines behind inserted imports. -/

/-- The lines of inserted imports. -/
def insertedLines (ds : List DirectImport) : List String :=
  ds.map fun m => m.statement.spelling

theorem toList_spelling_statement (m : DirectImport) (rest : List Char) :
    m.statement.spelling.toList ++ rest = Grammar.defaultText m.name m.path rest := by
  have himport : "import ".toList = "import".toList ++ [' '] := rfl
  have hfrom : " from ".toList = ' ' :: ("from".toList ++ [' ']) := rfl
  have hsemicolon : ";".toList = [';'] := rfl
  rw [DirectImport.spelling_statement]
  unfold Grammar.defaultText Grammar.fromText
  simp only [String.toList_append, himport, hfrom, hsemicolon, List.append_assoc,
    List.cons_append, List.nil_append]

/-- What is no watched import has no members. -/
theorem Statement.members_of_unwatched {n : Node}
    (h : ∀ decl, ImportDecl.ofNode? n = some decl → WatchList.standard.watches decl.source = false) :
    (ofNode n).members .standard = [] := by
  cases hdecl : ImportDecl.ofNode? n with
  | none =>
      rw [ofNode_of_none hdecl]
      rfl
  | some decl =>
      rw [ofNode_of_some hdecl]
      exact if_neg (by rw [h decl hdecl]; exact Bool.false_ne_true)

/-- **Where inserted imports and what stays are all of the text, no statement
has a named member.**  The first inserted import is read as the first statement:
either it goes away there, or it stays and stands behind the others. -/
theorem members_of_lines {d : Dialect} :
    ∀ {ns : List Node} {ds : List DirectImport}, (∀ m ∈ ds, Grammar.IsWord m.name.toList) →
      Grammar.Segments d (lines (insertedLines ds ++ leftLines ns)) ns →
      ∀ n ∈ ns, (Statement.ofNode n).members .standard = [] := by
  intro ns
  induction ns with
  | nil => exact fun _ _ _ h => absurd h List.not_mem_nil
  | cons n ns ih =>
      intro ds hwords h
      cases ds with
      | nil =>
          intro k hk
          exact Statement.members_of_unwatched
            (unwatched_of_lines h (goesAway_of_lines h) k hk)
      | cons m ds =>
          have hm : Grammar.IsWord m.name.toList := hwords m List.mem_cons_self
          have hds : ∀ k ∈ ds, Grammar.IsWord k.name.toList :=
            fun k hk => hwords k (List.mem_cons_of_mem _ hk)
          -- the first inserted import is read as the first statement
          have hlines : insertedLines (m :: ds) ++ leftLines (n :: ns)
              = m.statement.spelling :: (insertedLines ds ++ leftLines (n :: ns)) := rfl
          rw [hlines, lines_cons, toList_spelling_statement] at h
          obtain ⟨ns', hcons, hrest⟩ := h.of_default hm
          obtain ⟨rfl, rfl⟩ := List.cons.inj hcons
          obtain ⟨decl, hdecl, hspecifiers⟩ := Grammar.ofNode?_defaultNode m.name m.path
          have hspelling : (Grammar.defaultNode m.name m.path).spelling = m.statement.spelling := by
            have htext := Grammar.spelling_defaultNode m.name m.path []
            rw [← toList_spelling_statement, List.append_nil, List.append_nil] at htext
            exact String.toList_inj.1 htext
          generalize Grammar.defaultNode m.name m.path = n at hdecl hspelling hrest
          replace hrest := hrest.of_moreLines
          rw [leftLines_cons] at hrest
          have htypes : decl.types = [] := by
            unfold ImportDecl.types
            rw [hspecifiers]
            rfl
          have hmembers : decl.members = [] := by
            unfold ImportDecl.members
            rw [hspecifiers]
            rfl
          have hall : ∀ k ∈ ns, (Statement.ofNode k).members .standard = [] := by
            cases hw : WatchList.standard.watches decl.source with
            -- it goes away, and one inserted import less is left
            | true =>
                rw [Statement.leftOf_of_watched hdecl hw, htypes] at hrest
                exact ih hds hrest
            -- it stays, behind the other inserted imports: as if it were the last of them
            | false =>
                have hone := Statement.leftOf_of_unwatched fun e h => by
                  obtain rfl : decl = e := Option.some.inj (hdecl.symm.trans h)
                  exact hw
                have hturn : insertedLines ds
                    ++ ([Statement.ofNode n].map Statement.spelling ++ leftLines ns)
                    = insertedLines (ds ++ [m]) ++ leftLines ns := by
                  unfold insertedLines
                  rw [List.map_append, List.append_assoc, List.map_cons, List.map_nil,
                    Statement.spelling_ofNode, hspelling]
                  rfl
                rw [hone, hturn] at hrest
                refine ih (fun k hk => ?_) hrest
                rcases List.mem_append.1 hk with hk | hk
                · exact hds k hk
                · rw [List.mem_singleton.1 hk]
                  exact hm
          intro k hk
          rcases List.mem_cons.1 hk with rfl | hk
          · rw [Statement.ofNode_of_some hdecl]
            show (if WatchList.standard.watches decl.source then decl.members else []) = []
            rw [hmembers]
            exact ite_self _
          · exact hall k hk

/-! ## §4. Lines behind a prologue. -/

/-- The first character that is not blank. -/
def firstSolid (s : List Char) : Option Char := s.find? fun e => !Text.isGap e

theorem firstSolid_append (s t : List Char) :
    firstSolid (s ++ t) = (firstSolid s).or (firstSolid t) :=
  List.find?_append

theorem firstSolid_of_blank {s : List Char} (h : ∀ e ∈ s, Text.isGap e = true) :
    firstSolid s = none := by
  refine List.find?_eq_none.2 fun e he => ?_
  rw [h e he]
  exact Bool.false_ne_true

theorem firstSolid_of_head? {s : List Char} {e : Char} (hs : s.head? = some e)
    (he : Text.isGap e = false) : firstSolid s = some e := by
  obtain ⟨t, rfl⟩ := List.head?_eq_some_iff.1 hs
  exact List.find?_cons_of_pos (by rw [he]; rfl)

/-- A token of a known start starts with one of its characters. -/
theorem Node.WellRead.firstSolid {n : Node} (hn : n.WellRead) (hkind : startingChars n.kind ≠ []) :
    ∃ k ∈ startingChars n.kind, ImportSplit.firstSolid n.spelling.toList = some k := by
  cases n with
  | identifier name => exact absurd rfl hkind
  | member object operator property => exact absurd rfl hkind
  | construct kind parts => exact absurd hn.1 hkind
  | token kind text =>
      obtain ⟨k, hk, hmem⟩ := hn hkind
      refine ⟨k, hmem, ?_⟩
      rw [Node.spelling]
      exact firstSolid_of_head? hk (Grammar.of_mem_startingChars hmem).1

/-- So does a row of parts whose first node is one. -/
theorem Part.AllWellRead.firstSolid {ps : List Part} {first : Node} {rest : List Node}
    (hps : Part.AllWellRead ps) (hfirst : Part.nodes ps = first :: rest)
    (hkind : startingChars first.kind ≠ []) :
    ∃ k ∈ startingChars first.kind,
      ImportSplit.firstSolid (Part.spellingOfList ps).toList = some k := by
  induction ps with
  | nil => cases hfirst
  | cons p ps ih =>
      obtain ⟨hp, hrest⟩ := hps
      rw [Part.spellingOfList_cons, String.toList_append, firstSolid_append]
      cases p with
      | text t =>
          obtain ⟨k, hmem, hk⟩ := ih hrest hfirst
          have hblank : ImportSplit.firstSolid (Part.text t).spelling.toList = none := by
            rw [Part.spelling]
            exact firstSolid_of_blank hp
          exact ⟨k, hmem, by rw [hblank, hk]; rfl⟩
      | node n =>
          obtain ⟨rfl, -⟩ := List.cons.inj hfirst
          obtain ⟨k, hmem, hk⟩ := Node.WellRead.firstSolid hp hkind
          refine ⟨k, hmem, ?_⟩
          rw [Part.spelling, hk]
          rfl

/-- The statement may stand in a prologue. -/
def Statement.inPrologue (s : Statement) : Bool := s.isHashbang || s.isDirective || s.isComment

theorem inPrologue_of_mem_take {body : List Statement} :
    ∀ s ∈ body.take (prologueEnd body), s.inPrologue = true := by
  induction body with
  | nil => exact fun _ h => absurd h List.not_mem_nil
  | cons s rest ih =>
      intro t ht
      unfold prologueEnd at ht
      unfold Statement.inPrologue at ih ⊢
      -- a comment belongs to the prologue only if more of it follows
      by_cases hstart : (s.isHashbang || s.isDirective) = true
      · rw [if_pos hstart, List.take_succ_cons] at ht
        rcases List.mem_cons.1 ht with rfl | ht
        · rw [hstart, Bool.true_or]
        · exact ih t ht
      · rw [if_neg hstart] at ht
        by_cases hcomment : s.isComment = true
        · rw [if_pos hcomment] at ht
          cases hend : prologueEnd rest with
          | zero =>
              rw [hend] at ht
              exact absurd ht List.not_mem_nil
          | succ n =>
              rw [hend] at ht ih
              rw [List.take_succ_cons] at ht
              rcases List.mem_cons.1 ht with rfl | ht
              · rw [hcomment, Bool.or_true]
              · exact ih t ht
        · rw [if_neg hcomment] at ht
          exact absurd ht List.not_mem_nil

/-- A statement of a prologue does not start with a word. -/
theorem firstSolid_of_inPrologue {n : Node} (hn : n.WellRead)
    (h : (Statement.other n).inPrologue = true) :
    ∃ k, firstSolid n.spelling.toList = some k ∧ Grammar.isWordChar k = false := by
  have hfound : ∀ kind : String, (∃ k ∈ startingChars kind, firstSolid n.spelling.toList = some k) →
      ∃ k, firstSolid n.spelling.toList = some k ∧ Grammar.isWordChar k = false := by
    rintro kind ⟨k, hmem, hk⟩
    exact ⟨k, hk, (Grammar.of_mem_startingChars hmem).2⟩
  have hkind : ∀ kind, startingChars kind ≠ [] → n.kind = kind →
      ∃ k, firstSolid n.spelling.toList = some k ∧ Grammar.isWordChar k = false := by
    rintro kind hne rfl
    exact hfound _ (hn.firstSolid hne)
  unfold Statement.inPrologue at h
  rw [Bool.or_eq_true, Bool.or_eq_true] at h
  rcases h with (h | h) | h
  · exact hkind "hash_bang_line" (by decide) (eq_of_beq h)
  · -- a directive starts with its string
    cases n with
    | construct kind parts =>
        simp only [Statement.isDirective, Bool.and_eq_true] at h
        obtain ⟨-, h⟩ := h
        split at h
        · next first rest hnodes =>
            have hstring : first.kind = "string" := eq_of_beq (Bool.and_eq_true _ _ ▸ h).1
            have hne : startingChars first.kind ≠ [] := by
              rw [hstring]
              decide
            refine hfound first.kind ?_
            rw [Node.spelling]
            exact hn.2.2.firstSolid hnodes hne
        · cases h
    | _ => cases h
  · exact hkind "comment" (by decide) (eq_of_beq h)

/-- What stays of an import is no part of a prologue. -/
theorem Statement.eq_other_of_mem_leftOf {s : Statement} {n : Node} (hs : s ∈ leftOf n)
    (hp : s.inPrologue = true) : ImportDecl.ofNode? n = none ∧ s = .other n := by
  cases hdecl : ImportDecl.ofNode? n with
  | none =>
      have hone := leftOf_of_unwatched (n := n) fun decl h => by
        rw [hdecl] at h
        cases h
      rw [hone, ofNode_of_none hdecl] at hs
      exact ⟨rfl, List.mem_singleton.1 hs⟩
  | some decl =>
      exfalso
      have himport : ∃ e, s = .importing e := by
        unfold leftOf at hs
        rw [ofNode_of_some hdecl] at hs
        rcases mem_kept_importing_iff.1 hs with ⟨-, heq⟩ | ⟨-, -, heq⟩
        · exact ⟨_, heq⟩
        · exact ⟨_, heq⟩
      obtain ⟨e, rfl⟩ := himport
      cases hp

theorem Grammar.Segments.firstSolid_of_import {d : Dialect} {s : List Char} {n : Node}
    {ns : List Node} (h : Grammar.Segments d s (n :: ns)) (hdecl : ImportDecl.ofNode? n ≠ none) :
    firstSolid s = some 'i' := by
  cases h with
  | next hblank hne hread hrest =>
      rw [firstSolid_append, firstSolid_of_blank hblank,
        firstSolid_of_head? (hread.head?_of_import hdecl) (by decide)]
      rfl

/-- **The same behind a prologue**, which stands at the front of the text. -/
theorem members_of_prologue {d : Dialect} :
    ∀ {ns : List Node} {before behind : List Statement} {ds : List DirectImport},
      (∀ n ∈ ns, n.WellRead) → (∀ s ∈ before, s.inPrologue = true) →
      (∀ m ∈ ds, Grammar.IsWord m.name.toList) →
      ns.flatMap Statement.leftOf = before ++ behind →
      Grammar.Segments d (lines (before.map Statement.spelling
        ++ (insertedLines ds ++ behind.map Statement.spelling))) ns →
      ∀ n ∈ ns, (Statement.ofNode n).members .standard = [] := by
  intro ns
  induction ns with
  | nil => exact fun _ _ _ _ _ _ h => absurd h List.not_mem_nil
  | cons n ns ih =>
      intro before behind ds hwell hbefore hwords hleft h
      cases before with
      -- the prologue is over
      | nil =>
          have hlines : behind.map Statement.spelling = leftLines (n :: ns) := by
            unfold leftLines
            rw [hleft]
            rfl
          rw [hlines] at h
          exact members_of_lines hwords h
      | cons s before =>
          have hs : s.inPrologue = true := hbefore s List.mem_cons_self
          have hns : ∀ m ∈ ns, m.WellRead := fun m hm => hwell m (List.mem_cons_of_mem _ hm)
          rw [List.map_cons, List.cons_append, lines_cons] at h
          rw [List.flatMap_cons] at hleft
          -- the first statement stays, for an import would start with its word
          have hnone : ImportDecl.ofNode? n = none := by
            cases hdecl : ImportDecl.ofNode? n with
            | none => rfl
            | some decl =>
                exfalso
                have hmem : s ∈ Statement.leftOf n ++ ns.flatMap Statement.leftOf := by
                  rw [hleft]
                  exact List.mem_cons_self
                rcases List.mem_append.1 hmem with hmem | hmem
                · rw [(Statement.eq_other_of_mem_leftOf hmem hs).1] at hdecl
                  cases hdecl
                · obtain ⟨m, hm, hmem⟩ := List.mem_flatMap.1 hmem
                  obtain ⟨-, rfl⟩ := Statement.eq_other_of_mem_leftOf hmem hs
                  obtain ⟨k, hk, hword⟩ := firstSolid_of_inPrologue (hns m hm) hs
                  have hfirst := h.firstSolid_of_import (by rw [hdecl]; exact Option.some_ne_none _)
                  rw [firstSolid_append, Statement.spelling, hk] at hfirst
                  obtain rfl : k = 'i' := Option.some.inj hfirst
                  revert hword
                  decide
          have hone := Statement.leftOf_of_unwatched (n := n) fun decl h => by
            rw [hnone] at h
            cases h
          rw [hone, Statement.ofNode_of_none hnone] at hleft
          obtain ⟨rfl, hbehind⟩ := List.cons.inj hleft
          -- its text stands at the front, and the others follow on the next line
          have hrest := ih hns (fun t ht => hbefore t (List.mem_cons_of_mem _ ht)) hwords hbehind
            h.of_node.of_moreLines
          intro k hk
          rcases List.mem_cons.1 hk with rfl | hk
          · rw [Statement.ofNode_of_none hnone]
            rfl
          · exact hrest k hk

/-! ## §5. Texts that are their own split. -/

/-- A module whose imports are not watched is its own split. -/
theorem Program.split_of_unwatched {w : WatchList} {p : Program}
    (h : ∀ d ∈ p.imports, w.watches d.source = false) : p.split w = p := by
  refine Program.split_of_settled fun s hs => ?_
  cases s with
  | other n => trivial
  | importing d =>
      intro hw
      rw [h d (List.mem_filterMap.2 ⟨_, hs, rfl⟩)] at hw
      cases hw

/-- The named members of a statement that was read bind words. -/
theorem Statement.isWord_of_mem_members {w : WatchList} {n : Node} (hn : n.WellRead)
    {m : DirectImport} (hm : m ∈ (ofNode n).members w) : Grammar.IsWord m.name.toList := by
  cases hdecl : ImportDecl.ofNode? n with
  | none =>
      rw [ofNode_of_none hdecl] at hm
      cases hm
  | some decl =>
      rw [ofNode_of_some hdecl] at hm
      have hmem : m ∈ if w.watches decl.source then decl.members else [] := hm
      by_cases hw : w.watches decl.source = true
      · rw [if_pos hw] at hmem
        obtain ⟨x, hx, hxm⟩ := List.mem_filterMap.1 hmem
        exact hn.isWord_of_member hdecl hx hxm
      · rw [if_neg hw] at hmem
        cases hmem

/-- **A module that was read is not watched, if its split prints the text it was
read from.** -/
theorem Program.unwatched_of_spelling_split {d : Dialect} {text : String} {p : Program}
    (hread : Program.ofSource? d text = some p) (hsplit : (p.split .standard).spelling = text) :
    ∀ i ∈ p.imports, WatchList.standard.watches i.source = false := by
  obtain ⟨ns, hbody, hsegments, hwell⟩ := Program.segments_of_ofSource? hread
  -- no access is rewritten
  have hpoints : (ns.map fun n => amount '.' n.spelling).sum
      ≤ amount '.' (p.split .standard).spelling := by
    rw [hsplit]
    exact Nat.le_of_eq (hsegments.count_eq (by decide)).symm
  have hsplitBody := split_body_of_amount_point hbody hwell hpoints
  have hleft : p.body.flatMap (Statement.kept .standard Scope.none)
      = ns.flatMap Statement.leftOf := by
    rw [hbody, List.flatMap_map]
    rfl
  rw [hleft] at hsplitBody
  have htext : text.toList = lines ((p.split .standard).body.map Statement.spelling) := by
    rw [← hsplit]
    rfl
  rw [htext, hsplitBody] at hsegments
  -- nothing is inserted
  have hwords : ∀ m ∈ p.members .standard, Grammar.IsWord m.name.toList := by
    intro m hm
    obtain ⟨s, hs, hms⟩ := List.mem_flatMap.1 hm
    rw [hbody] at hs
    obtain ⟨n, hn, rfl⟩ := List.mem_map.1 hs
    exact Statement.isWord_of_mem_members (hwell n hn) hms
  have hlines : Grammar.Segments d (lines
      (((ns.flatMap Statement.leftOf).take (prologueEnd (ns.flatMap Statement.leftOf))).map
        Statement.spelling
      ++ (insertedLines (p.members .standard)
        ++ ((ns.flatMap Statement.leftOf).drop (prologueEnd (ns.flatMap Statement.leftOf))).map
          Statement.spelling))) ns := by
    unfold insertImports at hsegments
    rw [List.map_append, List.map_append, List.map_map, List.append_assoc] at hsegments
    exact hsegments
  have hmembers : ∀ n ∈ ns, (Statement.ofNode n).members .standard = [] :=
    members_of_prologue hwell inPrologue_of_mem_take hwords (List.take_append_drop _ _).symm hlines
  have hnone : p.members .standard = [] := by
    unfold Program.members
    rw [hbody, List.flatMap_map]
    exact List.flatMap_eq_nil_iff.2 hmembers
  rw [hnone, List.map_nil, insertImports_nil] at hsegments
  -- so what stays is all of the text
  have hunwatched := unwatched_of_lines hsegments (goesAway_of_lines hsegments)
  intro i hi
  obtain ⟨s, hs, hsi⟩ := List.mem_filterMap.1 hi
  rw [hbody] at hs
  obtain ⟨n, hn, rfl⟩ := List.mem_map.1 hs
  cases hdecl : ImportDecl.ofNode? n with
  | none =>
      rw [Statement.ofNode_of_none hdecl] at hsi
      cases hsi
  | some decl =>
      rw [Statement.ofNode_of_some hdecl] at hsi
      cases hsi
      exact hunwatched n hn _ hdecl

/-- **A text is its own split exactly if it prints as it was read and imports no
watched module.** -/
theorem splitText_eq_iff (d : Dialect) (text : String) :
    splitText .standard d text = .ok text
      ↔ ∃ p, Program.ofSource d text = .ok p ∧ p.spelling = text
        ∧ ∀ i ∈ p.imports, WatchList.standard.watches i.source = false := by
  unfold splitText
  cases hread : Program.ofSource d text with
  | error fault =>
      constructor
      · intro h
        cases h
      · rintro ⟨p, hp, -⟩
        cases hp
  | ok p =>
      have hread? : Program.ofSource? d text = some p := by
        unfold Program.ofSource at hread
        split at hread
        · next q hq =>
            cases hread
            exact hq
        · cases hread
      constructor
      · intro h
        have hsplit : (p.split .standard).spelling = text := Except.ok.inj h
        have hunwatched := Program.unwatched_of_spelling_split hread? hsplit
        rw [Program.split_of_unwatched hunwatched] at hsplit
        exact ⟨p, rfl, hsplit, hunwatched⟩
      · rintro ⟨q, hq, hspelling, hunwatched⟩
        obtain rfl := Except.ok.inj hq
        show Except.ok (p.split .standard).spelling = Except.ok text
        rw [Program.split_of_unwatched hunwatched, hspelling]

/-- A split need not be its own split: what it makes of a named member `fp` goes
away the next time. -/
theorem splitText_not_idempotent :
    ¬ ∀ (d : Dialect) (source out : String), splitText .standard d source = .ok out →
      splitText .standard d out = .ok out := by
  intro h
  have hruns : (splitText .standard .js "import \x7bfp\x7d from \"lodash\";").toOption
        = some "import fp from \"lodash/fp\";"
      ∧ (splitText .standard .js "import fp from \"lodash/fp\";").toOption = some "" := by
    decide +kernel
  -- results are compared as options, which can be decided
  have hok : ∀ {r : Except SyntaxFault String} {s : String}, r.toOption = some s → r = .ok s := by
    intro r s hr
    cases r with
    | error fault => cases hr
    | ok t =>
        cases hr
        rfl
  have hagain := h _ _ _ (hok hruns.1)
  rw [hok hruns.2] at hagain
  exact absurd (Except.ok.inj hagain) (by decide)

end ImportSplit
