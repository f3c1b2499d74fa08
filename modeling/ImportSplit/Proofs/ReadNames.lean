/-
  ImportSplit.Proofs.ReadNames
  ────────────────────────────────
  **NAMES IN BRACES THAT ARE READ.**

  The names of an import declaration stand in braces, with an alias where two
  names differ:

      { a, b as c, d }

  Where all names are words, each entry is read as one node (§2), and the
  braces as the node of all entries (§3), whatever the dialect is: the mark of
  a type is refused, since behind it no name is left.
-/
import ImportSplit.Proofs.ReadImport
import ImportSplit.Proofs.Amounts

namespace ImportSplit.Grammar

/-! ## §1. Words and what ends them. -/

/-- A comma stands here, or the brace that ends a list behind a space. -/
def EndsEntry (s : List Char) : Prop :=
  (∃ more, s = ',' :: more) ∨ ∃ more, s = ' ' :: '\x7d' :: more

/-- What ends an entry ends a word, and is no word. -/
theorem EndsEntry.gap {s : List Char} (h : EndsEntry s) :
    EndsWord s ∧ ∃ g e u, readGap false s [] s = (g, e :: u) ∧ (e = ',' ∨ e = '\x7d') := by
  rcases h with ⟨more, rfl⟩ | ⟨more, rfl⟩
  · have hat : AtToken .js (',' :: more) := atToken_of_head? rfl (by decide) (by decide)
    refine ⟨fun e he => ?_, [], ',', more, hat.noGap, .inl rfl⟩
    obtain rfl : ',' = e := Option.some.inj he
    decide
  · have hat : AtToken .js ('\x7d' :: more) := atToken_of_head? rfl (by decide) (by decide)
    exact ⟨endsWord_space _, [.text " "], '\x7d', more, hat.readGap_space, .inr rfl⟩

section
variable {next : Symbol → Context → List Part → List Char → Outcome} {c : Context}
  {g : List Part} {s rest : List Char}

theorem EndsEntry.gives (h : EndsEntry rest) : Gives next endsEntry c rest [] rest := by
  obtain ⟨-, g, e, u, hgap, he⟩ := h.gap
  have hmark : ∃ row', step next (.either (Rule.mark ",") (Rule.mark "\x7d")) c [] rest
      = .done row' u := by
    rcases he with rfl | rfl
    · have hcomma : Gives next (Rule.mark ",") c rest _ u :=
        gives_token (t := [',']) hgap (by simp [Lexeme.size?])
      exact ⟨_, hcomma.left []⟩
    · have hcomma : Refuses next (Rule.mark ",") c rest :=
        refuses_token hgap (sign_size?_eq_none rfl (by decide))
      have hbrace : Gives next (Rule.mark "\x7d") c rest _ u :=
        gives_token (t := ['\x7d']) hgap (by simp [Lexeme.size?])
      exact ⟨_, hcomma.right hbrace []⟩
  obtain ⟨row', hmark⟩ := hmark
  exact gives_ahead hmark

/-- No word and no string stands where an entry ends. -/
theorem EndsEntry.refuses (h : EndsEntry rest) {lexeme : Lexeme}
    (hlexeme : lexeme ∈ [.keyword "as".toList, .name [], .string]) {kind : String} :
    Refuses next (Rule.token kind lexeme) c rest := by
  obtain ⟨-, g, e, u, hgap, he⟩ := h.gap
  refine refuses_token hgap ?_
  simp only [List.mem_cons, List.not_mem_nil, or_false] at hlexeme
  rcases he with rfl | rfl <;> rcases hlexeme with rfl | rfl | rfl <;> rfl

theorem isWord_as : IsWord "as".toList := by decide

/-- ` as x`, before the rest of a text. -/
theorem gives_as {t : List Char} :
    Gives next (Rule.keyword "as") c (' ' :: ("as".toList ++ (' ' :: t)))
      [.text " ", .node (.token "as" "as")] (' ' :: t) :=
  gives_keyword isWord_as (endsWord_space t) (isWord_as.atToken (d := .js) _).readGap_space

/-- A word where a string could stand, too. -/
theorem gives_aliasedName {x : String} (hx : IsWord x.toList) (hrest : EndsWord rest) :
    Gives next (.either (Rule.token "string" .string) (Rule.wordBut "identifier" [])) c
      (x.toList ++ rest) [.node (.identifier x)] rest := by
  have hgap : readGap false (x.toList ++ rest) [] (x.toList ++ rest) = ([], x.toList ++ rest) :=
    (hx.atToken (d := .js) rest).noGap
  have hstring : Refuses next (Rule.token "string" .string) c (x.toList ++ rest) := by
    refine refuses_token hgap ?_
    -- a quote starts no word
    obtain ⟨e, he, hchar⟩ := hx.head?
    refine string_size?_eq_none (e := e) (by rw [List.head?_append, he]; rfl) fun hmem => ?_
    rcases hchar with hchar | rfl
    · rw [(of_mem_startingChars hmem).2] at hchar
      cases hchar
    · exact absurd hmem (by decide)
  exact hstring.right (gives_word hx hrest hgap)

/-! ## §2. One entry. -/

end

/-- The specifier stands in braces, under names that are words. -/
inductive IsWordEntry : Specifier → Prop where
  | named {exported bound : String} (hexported : IsWord exported.toList)
      (hbound : IsWord bound.toList) : IsWordEntry (.named (some exported) (some bound))
  | typeOnly {exported bound : String} (hexported : IsWord exported.toList)
      (hbound : IsWord bound.toList) : IsWordEntry (.typeOnly (some exported) (some bound))

/-- The parts of the entry for two names. -/
def entryParts (exported bound : String) : List Part :=
  if exported = bound then [.node (.identifier bound)]
  else [.node (.identifier exported), .text " ", .node (.token "as" "as"), .text " ",
    .node (.identifier bound)]

/-- The node that an entry is read as, when its names alone are spelled. -/
def entryNode : Specifier → Node
  | .named (some exported) (some bound) | .typeOnly (some exported) (some bound) =>
      .construct "import_specifier" (entryParts exported bound)
  | _ => default

section
variable {next : Symbol → Context → List Part → List Char → Outcome} {c : Context}
  {rest : List Char} {exported bound : String}

/-- A name alone has no alias. -/
theorem refuses_aliased (hbound : IsWord bound.toList) (hends : EndsEntry rest) :
    Refuses next (Rule.row [aliased "identifier", endsEntry]) c (bound.toList ++ rest) := by
  have has : Refuses next (Rule.row [Rule.keyword "as", Rule.wordBut "identifier" []]) c rest :=
    (hends.refuses (by simp)).row
  exact ((gives_aliasedName hbound hends.gap.1).row_refuses has).row

/-- Nor is it the mark of another name. -/
theorem refuses_marked (hbound : IsWord bound.toList) (hends : EndsEntry rest) :
    Refuses next (Rule.row [typeModifier,
      .either (Rule.row [aliased "identifier", endsEntry]) Rule.anyName, endsEntry]) c
      (bound.toList ++ rest) := by
  have hgap : readGap false (bound.toList ++ rest) [] (bound.toList ++ rest)
      = ([], bound.toList ++ rest) :=
    (hbound.atToken (d := .js) rest).noGap
  -- if it is read as the mark, no name follows
  have hstring : Refuses next
      (.either (Rule.token "string" .string) (Rule.wordBut "identifier" [])) c rest :=
    (hends.refuses (by simp)).either (hends.refuses (by simp))
  have hnone : Refuses next (Rule.row
      [.either (Rule.row [aliased "identifier", endsEntry]) Rule.anyName, endsEntry]) c rest :=
    (hstring.row.row.either (hends.refuses (by simp))).row
  intro row
  by_cases htypes : c.dialect.hasTypes = true
  · have hmark := step_typeMark_cases next c row hbound hends.gap.1 hgap
    rcases hmark with hmark | ⟨row', hmark⟩
    · exact step_row_refused (step_typed_refused (step_row_refused hmark))
    · have has : Refuses next (Rule.keyword "as") c rest := hends.refuses (by simp)
      have hmodifier : step next typeModifier c row (bound.toList ++ rest) = .done row' rest := by
        show step next (.seq (.given fun c => c.dialect.hasTypes) (Rule.row
          [.either (Rule.keyword "type") (Rule.keyword "typeof"), .notAhead (Rule.keyword "as")])) c
          row (bound.toList ++ rest) = _
        simp only [step, htypes, if_true]
        rw [step_row hmark]
        show step next (.notAhead (Rule.keyword "as")) c row' rest = _
        rw [step, has]
      exact (step_row hmodifier).trans (hnone row')
  · exact (refuses_typed (Bool.eq_false_iff.2 htypes)).row row

theorem gives_importSpecifier_names (hexported : IsWord exported.toList)
    (hbound : IsWord bound.toList) (hends : EndsEntry rest) :
    Gives next importSpecifier c (' ' :: ((Specifier.spellNamed exported bound).toList ++ rest))
      [.text " ", .node (.construct "import_specifier" (entryParts exported bound))] rest := by
  unfold Specifier.spellNamed entryParts
  by_cases heq : exported = bound
  · rw [if_pos heq, if_pos heq]
    have hat : AtToken .js (bound.toList ++ rest) := hbound.atToken rest
    have hname : Gives next Rule.anyName c (bound.toList ++ rest) [.node (.identifier bound)] rest :=
      gives_word hbound hends.gap.1 hat.noGap
    exact Gives.node hat.readGap_space
      ((refuses_aliased hbound hends).right ((refuses_marked hbound hends).right hname))
  · rw [if_neg heq, if_neg heq]
    have htext : (exported ++ " as " ++ bound).toList ++ rest
        = exported.toList ++ (' ' :: ("as".toList ++ (' ' :: (bound.toList ++ rest)))) := by
      rw [String.toList_append, String.toList_append, List.append_assoc, List.append_assoc]
      rfl
    rw [htext]
    have hat : AtToken .js (exported.toList ++ (' ' :: ("as".toList ++ (' ' :: (bound.toList ++ rest))))) :=
      hexported.atToken _
    have hbound' : Gives next (Rule.wordBut "identifier" []) c (' ' :: (bound.toList ++ rest))
        [.text " ", .node (.identifier bound)] rest :=
      gives_word hbound hends.gap.1 (hbound.atToken (d := .js) rest).readGap_space
    have haliased : Gives next (aliased "identifier") c
        (exported.toList ++ (' ' :: ("as".toList ++ (' ' :: (bound.toList ++ rest)))))
        [.node (.identifier exported), .text " ", .node (.token "as" "as"), .text " ",
          .node (.identifier bound)] rest :=
      (gives_aliasedName hexported (endsWord_space _)).row (gives_as.row hbound'.last)
    exact Gives.node hat.readGap_space (haliased.row hends.gives.last).left

/-- **An entry is read as its node, up to what ends it.** -/
theorem gives_importSpecifier {x : Specifier} (hx : IsWordEntry x) (hends : EndsEntry rest) :
    Gives next importSpecifier c (' ' :: (x.spelled.toList ++ rest))
      [.text " ", .node (entryNode x)] rest := by
  cases hx with
  | named hexported hbound => exact gives_importSpecifier_names hexported hbound hends
  | typeOnly hexported hbound => exact gives_importSpecifier_names hexported hbound hends

/-! ## §3. All entries. -/

end

/-- Further entries of a list, before the rest of a text. -/
def moreEntries : List Specifier → List Char → List Char
  | [], rest => rest
  | x :: xs, rest => ',' :: ' ' :: (x.spelled.toList ++ moreEntries xs rest)

/-- The parts of further entries. -/
def moreEntryParts : List Specifier → List Part
  | [] => []
  | x :: xs => .node (.token "," ",") :: .text " " :: .node (entryNode x) :: moreEntryParts xs

/-- `{ … }`, before the rest of a text. -/
def bracedEntries (x : Specifier) (xs : List Specifier) (rest : List Char) : List Char :=
  '\x7b' :: ' ' :: (x.spelled.toList ++ moreEntries xs (' ' :: '\x7d' :: rest))

/-- The node of all entries. -/
def bracedNode (x : Specifier) (xs : List Specifier) : Node :=
  .construct "named_imports" (.node (.token "\x7b" "\x7b") :: .text " " :: .node (entryNode x)
    :: (moreEntryParts xs ++ [.text " ", .node (.token "\x7d" "\x7d")]))

theorem toList_intercalate_entries (x : Specifier) (xs : List Specifier) (rest : List Char) :
    (String.intercalate ", " ((x :: xs).map Specifier.spelled)).toList ++ rest
      = x.spelled.toList ++ moreEntries xs rest := by
  induction xs generalizing x with
  | nil => simp [moreEntries]
  | cons y xs ih =>
      rw [List.map_cons, List.map_cons, String.intercalate_cons_cons, String.toList_append,
        String.toList_append, List.append_assoc, List.append_assoc, ← List.map_cons, ih]
      rfl

theorem endsEntry_moreEntries (xs : List Specifier) (rest : List Char) :
    EndsEntry (moreEntries xs (' ' :: '\x7d' :: rest)) := by
  cases xs with
  | nil => exact .inr ⟨rest, rfl⟩
  | cons x xs => exact .inl ⟨_, rfl⟩

theorem atToken_bracedEntries (x : Specifier) (xs : List Specifier) (rest : List Char) :
    AtToken .js (bracedEntries x xs rest) :=
  atToken_of_head? rfl (by decide) (by decide)

section
variable {next : Symbol → Context → List Part → List Char → Outcome} {c : Context}
  {g : List Part} {s rest : List Char} {x : Specifier} {xs : List Specifier}

/-- No comma stands before the brace that ends the list. -/
theorem refuses_comma : Refuses next (Rule.sign ",") c (' ' :: '\x7d' :: rest) := by
  have hat : AtToken .js ('\x7d' :: rest) := atToken_of_head? rfl (by decide) (by decide)
  exact refuses_token hat.readGap_space (sign_size?_eq_none rfl (by decide))

/-- Each round reads one entry. -/
theorem givesMany_entries (hxs : ∀ x ∈ xs, IsWordEntry x) :
    GivesMany next (.seq (Rule.sign ",") importSpecifier) c
      (moreEntries xs (' ' :: '\x7d' :: rest)) (moreEntryParts xs) (' ' :: '\x7d' :: rest) := by
  induction xs with
  | nil => exact refuses_comma.seq.givesMany
  | cons x xs ih =>
      obtain ⟨hx, hxs⟩ := List.forall_mem_cons.1 hxs
      have hat : AtToken .js (moreEntries (x :: xs) (' ' :: '\x7d' :: rest)) :=
        atToken_of_head? rfl (by decide) (by decide)
      have hcomma : Gives next (Rule.sign ",") c (moreEntries (x :: xs) (' ' :: '\x7d' :: rest))
          [.node (.token "," ",")]
          (' ' :: (x.spelled.toList ++ moreEntries xs (' ' :: '\x7d' :: rest))) :=
        gives_token (t := [',']) hat.noGap rfl
      have hround := hcomma.seq (gives_importSpecifier hx (endsEntry_moreEntries xs rest))
      refine hround.again ?_ (ih hxs)
      simp only [moreEntries, List.length_cons, List.length_append]
      omega

/-- **The braces are read as the node of all entries.** -/
theorem gives_namedImports (hx : IsWordEntry x) (hxs : ∀ y ∈ xs, IsWordEntry y)
    (hgap : readGap false s [] s = (g, bracedEntries x xs rest)) :
    Gives next namedImports c s (g.reverse ++ [.node (bracedNode x xs)]) rest := by
  have hopen : Gives next (Rule.mark "\x7b") c (bracedEntries x xs rest)
      [.node (.token "\x7b" "\x7b")]
      (' ' :: (x.spelled.toList ++ moreEntries xs (' ' :: '\x7d' :: rest))) :=
    gives_token (t := ['\x7b']) (atToken_bracedEntries x xs rest).noGap (by simp [Lexeme.size?])
  have hlisted : Gives next (Rule.listed importSpecifier) c.bracketed
      (' ' :: (x.spelled.toList ++ moreEntries xs (' ' :: '\x7d' :: rest)))
      ([.text " ", .node (entryNode x)] ++ moreEntryParts xs ++ []) (' ' :: '\x7d' :: rest) :=
    ((gives_importSpecifier hx (endsEntry_moreEntries xs rest)).seq
      (givesMany_entries hxs).many).seq refuses_comma.opt
  have hclose : Gives next (Rule.mark "\x7d") c (' ' :: '\x7d' :: rest)
      [.text " ", .node (.token "\x7d" "\x7d")] rest := by
    have hat : AtToken .js ('\x7d' :: rest) := atToken_of_head? rfl (by decide) (by decide)
    exact gives_token (t := ['\x7d']) hat.readGap_space (by simp [Lexeme.size?])
  have hbuild : bracedNode x xs = .build "named_imports" ([.node (.token "\x7b" "\x7b")]
      ++ ([.text " ", .node (entryNode x)] ++ moreEntryParts xs ++ []
        ++ [.text " ", .node (.token "\x7d" "\x7d")])) := by
    simp [bracedNode, Node.build]
  rw [hbuild]
  exact Gives.node hgap (hopen.row ((Gives.within hlisted.opt).row hclose.last))

/-- No brace stands where the whole module is asked for. -/
theorem refuses_namespaceImport (hgap : readGap false s [] s = (g, bracedEntries x xs rest)) :
    Refuses next namespaceImport c s :=
  Refuses.node hgap
    (refuses_token (atToken_bracedEntries x xs rest).noGap (sign_size?_eq_none rfl (by decide))).row

/-- A clause of braces, behind a space. -/
theorem gives_importClause_braced (hx : IsWordEntry x) (hxs : ∀ y ∈ xs, IsWordEntry y) :
    Gives next importClause c (' ' :: bracedEntries x xs rest)
      [.text " ", .node (.construct "import_clause" [.node (bracedNode x xs)])] rest := by
  have hopen := atToken_bracedEntries x xs rest
  exact Gives.node hopen.readGap_space
    ((refuses_namespaceImport hopen.noGap).right (gives_namedImports hx hxs hopen.noGap).left)

/-! ## §4. Where the names come from. -/

/-- What stands behind `import`, if it is a clause. -/
theorem Gives.importRest {ps : List Part} {path : String}
    (hclause : Gives next importClause c s ps (fromText path rest)) :
    Gives next importRest c s (ps ++ (fromParts path).reverse) rest := by
  have hfrom : Gives next fromClause c (fromText path rest) (fromParts path).reverse rest := by
    intro row
    rw [step_fromClause, List.reverse_reverse]
  exact (hclause.row hfrom.last).left

end

end ImportSplit.Grammar
