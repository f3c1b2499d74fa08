/-
  ImportSplit.Proofs.WrittenImports
  ────────────────────────────────
  **IMPORTS THAT ARE WRITTEN AND READ AGAIN.**

  A declaration that was built is spelled from its fields, and what is spelled
  can be read.  Where a dialect has no types and all names are ASCII
  identifiers, nothing is lost but the escapes of the source:

      decl  ──spelling──▶  text  ──ofSource──▶  decl, with `raw` and the escapes

  One lemma for each of the things that a clause can hold says how it is
  spelled, how it is read, and which specifiers its node stands for
  (`IsClause`); the statement around it is the same for all of them (§4).
-/
import ImportSplit.Proofs.ReadTypes

namespace ImportSplit

/-! ## §1. Declarations that are built. -/

namespace Text

/-- The letters of ASCII, `$` and `_`. -/
def isNameStart (c : Char) : Bool :=
  ('a' ≤ c && c ≤ 'z') || ('A' ≤ c && c ≤ 'Z') || c == '_' || c == '$'

/-- An ASCII identifier. -/
def isPlainName (x : String) : Bool :=
  match x.toList with
  | [] => false
  | c :: t => isNameStart c && t.all fun k => isNameStart k || ('0' ≤ k && k ≤ '9')

end Text

/-- The specifier has all its names, and each is an ASCII identifier. -/
def Specifier.isPlain : Specifier → Bool
  | byDefault (some bound) | whole (some bound) => Text.isPlainName bound
  | named (some exported) (some bound) => Text.isPlainName exported && Text.isPlainName bound
  | _ => false

/-- The declaration was built, of at most one name by default, followed by at
most one for the whole module or by any that are named. -/
structure ImportDecl.IsBuilt (d : ImportDecl) : Prop where
  raw : d.raw = none
  plain : ∀ x ∈ d.specifiers, x.isPlain = true
  order : ∃ main others, d.specifiers = main ++ others
    ∧ (main.length ≤ 1 ∧ ∀ x ∈ main, x.isByDefault = true)
    ∧ (others.length ≤ 1 ∧ (∀ x ∈ others, x.isWhole = true)
      ∨ ∀ x ∈ others, x.isNamed = true)

namespace Grammar

theorem isWordChar_of_isNameStart {c : Char} (h : Text.isNameStart c = true) :
    isWordChar c = true ∧ isDigit c = false := by
  simp only [Text.isNameStart, Bool.or_eq_true, Bool.and_eq_true, decide_eq_true_eq,
    beq_iff_eq] at h
  -- the digits stand before the letters
  have hdigit : ¬ c ≤ '9' → isDigit c = false := by
    intro hc
    unfold isDigit
    rw [decide_eq_false hc, Bool.and_false]
  rcases h with ((h | h) | rfl) | rfl
  · exact ⟨isWordChar_of_ascii (.inr (.inl h)),
      hdigit fun hc => absurd (Char.le_trans h.1 hc) (by decide)⟩
  · exact ⟨isWordChar_of_ascii (.inr (.inr h)),
      hdigit fun hc => absurd (Char.le_trans h.1 hc) (by decide)⟩
  · decide
  · decide

/-- **An ASCII identifier is a word.** -/
theorem isWord_of_isPlainName {x : String} (h : Text.isPlainName x = true) :
    IsWord x.toList := by
  unfold Text.isPlainName at h
  cases hx : x.toList with
  | nil =>
      rw [hx] at h
      cases h
  | cons c t =>
      rw [hx] at h
      simp only [Bool.and_eq_true, List.all_eq_true, Bool.or_eq_true, decide_eq_true_eq] at h
      obtain ⟨hstart, hrest⟩ := h
      obtain ⟨hword, hdigit⟩ := isWordChar_of_isNameStart hstart
      have hback : ∀ k, isWordChar k = true → (k == '\\') = false := by
        rintro k hk
        refine beq_false_of_ne ?_
        rintro rfl
        cases hk
      have hmove : word.move .start c = some .inside := by
        show (if (c == '\\') = true then some WordState.backslash
          else if (isWordChar c && !isDigit c) = true then some .inside else none) = _
        rw [hback c hword, hword, hdigit]
        rfl
      unfold IsWord
      rw [Scanner.run_cons hmove]
      -- behind the first character, each one goes on with the word
      clear hx hstart hword hdigit hmove
      induction t with
      | nil => rfl
      | cons k t ih =>
          obtain ⟨hk, ht⟩ := List.forall_mem_cons.1 hrest
          have hchar : isWordChar k = true := by
            rcases hk with hk | hk
            · exact (isWordChar_of_isNameStart hk).1
            · exact isWordChar_of_ascii (.inl hk)
          have hmove : word.move .inside k = some .inside := by
            show (if isWordChar k = true then some WordState.inside
              else if (k == '\\') = true then some .backslash else none) = _
            rw [if_pos hchar]
          rw [Scanner.run_cons hmove]
          exact ih ht

/-! ## §2. What stands beside a name by default. -/

/-- `text` can stand in a clause, behind a comma or alone: it spells the
specifiers, and is read as a node that stands for them. -/
structure IsClause (xs : List Specifier) (text : String) (n : Node) : Prop where
  clauses : ∀ (main : Option String) (source : String),
    ImportDecl.clauses
        { specifiers := main.toList.map (fun x => .byDefault (some x)) ++ xs, source := source }
      = main.toList ++ [text]
  atToken : ∀ rest, AtToken .js (text.toList ++ rest)
  gives : ∀ {next : Symbol → Context → List Part → List Char → Outcome} {c : Context}
    {g : List Part} {s rest : List Char}, EndsWord rest →
    readGap false s [] s = (g, text.toList ++ rest) →
    Gives next (.either namespaceImport namedImports) c s (g.reverse ++ [.node n]) rest
  specifiers : Specifier.ofClauseNode n = xs
  settled : n.isSettled = true

/-- The node of `* as bound`. -/
def wholeNode (bound : String) : Node :=
  .construct "namespace_import"
    [.node (.token "*" "*"), .text " ", .node (.token "as" "as"), .text " ",
      .node (.identifier bound)]

theorem isClause_whole {bound : String} (hbound : IsWord bound.toList) :
    IsClause [.whole (some bound)] ("* as " ++ bound) (wholeNode bound) where
  clauses main source := by cases main <;> rfl
  atToken rest := by
    refine atToken_of_head? (c := '*') ?_ (by decide) (by decide)
    rw [String.toList_append]
    rfl
  specifiers := rfl
  settled := rfl
  gives := by
    intro next c g s rest hrest hgap
    have htext : ("* as " ++ bound).toList ++ rest
        = '*' :: ' ' :: ("as".toList ++ (' ' :: (bound.toList ++ rest))) := by
      rw [String.toList_append, List.append_assoc]
      rfl
    rw [htext] at hgap
    have hat : AtToken .js ('*' :: ' ' :: ("as".toList ++ (' ' :: (bound.toList ++ rest)))) :=
      atToken_of_head? rfl (by decide) (by decide)
    have hstar : Gives next (Rule.mark "*") c
        ('*' :: ' ' :: ("as".toList ++ (' ' :: (bound.toList ++ rest)))) [.node (.token "*" "*")]
        (' ' :: ("as".toList ++ (' ' :: (bound.toList ++ rest)))) :=
      gives_token (t := ['*']) hat.noGap (by simp [Lexeme.size?])
    have hname : Gives next Rule.anyName c (' ' :: (bound.toList ++ rest))
        [.text " ", .node (.identifier bound)] rest :=
      gives_word hbound hrest (hbound.atToken (d := .js) rest).readGap_space
    exact (Gives.node hgap (hstar.row (gives_as.row hname.last))).left

/-- The specifier is a name, with all that belongs to it. -/
theorem isWordEntry_of_isPlain {x : Specifier} (hx : x.isPlain = true)
    (hnamed : x.isNamed = true) : IsWordEntry x := by
  cases x with
  | named exported bound =>
      cases exported with
      | none => cases hx
      | some exported =>
          cases bound with
          | none => cases hx
          | some bound =>
              obtain ⟨hexported, hbound⟩ := Bool.and_eq_true _ _ ▸ hx
              exact .named (isWord_of_isPlainName hexported) (isWord_of_isPlainName hbound)
  | byDefault | whole | typeOnly => cases hnamed

/-- The parts of an entry stand for the two names that they spell. -/
theorem ofParts_entryParts (exported bound : String) :
    Specifier.ofParts (entryParts exported bound) = .named (some exported) (some bound) := by
  unfold entryParts
  by_cases heq : exported = bound
  · rw [if_pos heq, heq]
    rfl
  · rw [if_neg heq]
    rfl

/-- The specifiers that stand for names, among the parts of the braces. -/
theorem ofParts_moreEntryParts {xs : List Specifier} (hxs : ∀ x ∈ xs, IsWordEntry x)
    (hnamed : ∀ x ∈ xs, x.isNamed = true) (ps : List Part) :
    ((Part.nodes (moreEntryParts xs ++ ps)).filterMap (Node.partsOf? "import_specifier")).map
        Specifier.ofParts
      = xs ++ ((Part.nodes ps).filterMap (Node.partsOf? "import_specifier")).map
        Specifier.ofParts := by
  induction xs with
  | nil => rfl
  | cons x xs ih =>
      obtain ⟨hx, hentries⟩ := List.forall_mem_cons.1 hxs
      obtain ⟨hxnamed, hnames⟩ := List.forall_mem_cons.1 hnamed
      cases hx with
      | typeOnly => cases hxnamed
      | @named exported bound hexported hbound =>
          show Specifier.ofParts (entryParts exported bound)
            :: ((Part.nodes (moreEntryParts xs ++ ps)).filterMap
              (Node.partsOf? "import_specifier")).map Specifier.ofParts = _
          rw [ofParts_entryParts, ih hentries hnames]
          rfl

/-- Names are spelled alike whether or not types are marked. -/
theorem filterMap_braced?_named {xs : List Specifier} (hxs : ∀ x ∈ xs, IsWordEntry x)
    (hnamed : ∀ x ∈ xs, x.isNamed = true) (marked : Bool) :
    xs.filterMap (Specifier.braced? marked) = xs.map Specifier.spelled := by
  induction xs with
  | nil => rfl
  | cons x xs ih =>
      obtain ⟨hx, hentries⟩ := List.forall_mem_cons.1 hxs
      obtain ⟨hxnamed, hnames⟩ := List.forall_mem_cons.1 hnamed
      cases hx with
      | typeOnly => cases hxnamed
      | named => exact congrArg _ (ih hentries hnames)

theorem isClause_named {x : Specifier} {xs : List Specifier}
    (hentries : ∀ y ∈ x :: xs, IsWordEntry y) (hnamed : ∀ y ∈ x :: xs, y.isNamed = true) :
    IsClause (x :: xs)
      ("\x7b " ++ String.intercalate ", " ((x :: xs).map Specifier.spelled) ++ " \x7d")
      (bracedNode x xs) where
  clauses main source := by
    have hdefault : (x :: xs).filter Specifier.isByDefault = [] :=
      List.filter_eq_nil_iff.2 fun y hy => by
        have hy := hnamed y hy
        cases y <;> simp [Specifier.isNamed, Specifier.isByDefault] at hy ⊢
    have hwhole : (x :: xs).filter Specifier.isWhole = [] :=
      List.filter_eq_nil_iff.2 fun y hy => by
        have hy := hnamed y hy
        cases y <;> simp [Specifier.isNamed, Specifier.isWhole] at hy ⊢
    have hbraced : ∀ marked, (x :: xs).filterMap (Specifier.braced? marked)
        = (x :: xs).map Specifier.spelled := filterMap_braced?_named hentries hnamed
    unfold ImportDecl.clauses ImportDecl.defaultName? ImportDecl.wholeName?
    simp only [List.filter_append, List.filterMap_append, hdefault, hwhole, hbraced]
    cases main <;> rfl
  atToken rest := atToken_of_head? (c := '\x7b') (by simp) (by decide) (by decide)
  settled := isSettled_bracedNode (hentries x List.mem_cons_self)
    fun y hy => hentries y (List.mem_cons_of_mem _ hy)
  specifiers := by
    have hparts := ofParts_moreEntryParts hentries hnamed
      [.text " ", .node (.token "\x7d" "\x7d")]
    exact hparts.trans (List.append_nil _)
  gives := by
    intro next c g s rest _ hgap
    have htext : ("\x7b " ++ String.intercalate ", " ((x :: xs).map Specifier.spelled)
        ++ " \x7d").toList ++ rest = bracedEntries x xs rest := by
      rw [String.toList_append, String.toList_append, List.append_assoc, List.append_assoc]
      exact congrArg (['\x7b', ' '] ++ ·) (toList_intercalate_entries x xs (' ' :: '\x7d' :: rest))
    rw [htext] at hgap
    exact (refuses_namespaceImport hgap).right (gives_namedImports (hentries x List.mem_cons_self)
      (fun y hy => hentries y (List.mem_cons_of_mem _ hy)) hgap)

/-! ## §3. Clauses. -/

section
variable {next : Symbol → Context → List Part → List Char → Outcome} {c : Context}
  {others : List Specifier} {text x path : String} {n : Node} {rest : List Char}

theorem endsWord_fromText : EndsWord (fromText path rest) := endsWord_space _

/-- A clause without a name by default. -/
theorem IsClause.gives_alone (h : IsClause others text n) :
    Gives next importClause c (' ' :: (text.toList ++ fromText path rest))
      [.text " ", .node (.construct "import_clause" [.node n])] (fromText path rest) :=
  Gives.node (h.atToken _).readGap_space
    (h.gives endsWord_fromText (h.atToken _).noGap).either_left

/-- A clause behind a name by default. -/
theorem IsClause.gives_behind (h : IsClause others text n) (hx : IsWord x.toList) :
    Gives next importClause c
      (' ' :: (x.toList ++ (',' :: ' ' :: (text.toList ++ fromText path rest))))
      [.text " ", .node (.construct "import_clause"
        [.node (.identifier x), .node (.token "," ","), .text " ", .node n])]
      (fromText path rest) := by
  have hat : AtToken .js (',' :: ' ' :: (text.toList ++ fromText path rest)) :=
    atToken_of_head? rfl (by decide) (by decide)
  have hends : EndsWord (',' :: ' ' :: (text.toList ++ fromText path rest)) := by
    intro e he
    obtain rfl : ',' = e := Option.some.inj he
    decide
  have hcomma : Gives next (Rule.sign ",") c (',' :: ' ' :: (text.toList ++ fromText path rest))
      [.node (.token "," ",")] (' ' :: (text.toList ++ fromText path rest)) :=
    gives_token (t := [',']) hat.noGap rfl
  have hothers : Gives next (.either namespaceImport namedImports) c
      (' ' :: (text.toList ++ fromText path rest)) [.text " ", .node n] (fromText path rest) :=
    h.gives endsWord_fromText (h.atToken _).readGap_space
  exact gives_importClause hx hends (hcomma.row hothers.last).opt

end

/-- What a declaration with a clause spells is read as one node. -/
theorem exists_clause {main : Option String} {others : List Specifier}
    (hmain : ∀ x ∈ main, IsWord x.toList) (hothers : others = [] ∨ ∃ text n, IsClause others text n)
    (source : String) (hne : ImportDecl.clauses
      { specifiers := main.toList.map (fun x => .byDefault (some x)) ++ others, source := source } ≠ []) :
    ∃ clause, Part.areSettled clause = true
      ∧ (Part.nodes clause).flatMap Specifier.ofClauseNode
        = main.toList.map (fun x => .byDefault (some x)) ++ others
      ∧ ∀ next c path rest, Gives next importClause c
        (' ' :: ((String.intercalate ", " (ImportDecl.clauses
          { specifiers := main.toList.map (fun x => .byDefault (some x)) ++ others
            source := source })).toList ++ fromText path rest))
        [.text " ", .node (.construct "import_clause" clause)] (fromText path rest) := by
  rcases hothers with rfl | ⟨text, n, hclause⟩
  · cases main with
    | none => exact absurd rfl hne
    | some x =>
        exact ⟨[.node (.identifier x)], rfl, rfl, fun next c path rest =>
          gives_importClause_alone (hmain x rfl) (isWord_from.atToken _) rfl (by decide)⟩
  · rw [hclause.clauses]
    have hspecifiers := hclause.specifiers
    have hsettled := hclause.settled
    cases main with
    | none =>
        refine ⟨[.node n], ?_, ?_, fun next c path rest => ?_⟩
        · rw [Part.areSettled, Part.isSettled, hsettled]
          rfl
        · show Specifier.ofClauseNode n ++ [] = _
          rw [hspecifiers, List.append_nil]
          rfl
        · simpa using hclause.gives_alone
    | some x =>
        refine ⟨[.node (.identifier x), .node (.token "," ","), .text " ", .node n], ?_, ?_,
          fun next c path rest => ?_⟩
        · show (n.isSettled && true) = true
          rw [hsettled]
          rfl
        · show .byDefault (some x) :: (Specifier.ofClauseNode n ++ []) = _
          rw [hspecifiers, List.append_nil]
          rfl
        · simpa using hclause.gives_behind (hmain x rfl)

/-! ## §4. Statements. -/

/-- The node of an import without a clause. -/
def bareNode (path : String) : Node :=
  .construct "import_statement"
    [.node (.token "import" "import"), .text " ", .node (.token "string" (Text.quote path)),
      .node (.token ";" ";")]

/-- What is declared by an import without a clause. -/
theorem ofNode?_bareNode (path : String) :
    ImportDecl.ofNode? (bareNode path)
      = some
        { specifiers := []
          source := quotedText (Text.quote path)
          raw := some (bareNode path).spelling } := by
  obtain ⟨htype, htypeof⟩ := isToken_quote path
  have hnodes : Part.nodes
      [.node (.token "import" "import"), .text " ", .node (.token "string" (Text.quote path)),
        .node (.token ";" ";")]
      = [.token "import" "import", .token "string" (Text.quote path), .token ";" ";"] := rfl
  have hnone : (([.token "import" "import", .token "string" (Text.quote path),
      .token ";" ";"] : List Node).any
        fun n => n.isToken "type" || n.isToken "typeof" || n.kind == "import_require_clause")
      = false := by
    simp only [List.any_cons, htype, htypeof]
    rfl
  unfold ImportDecl.ofNode? bareNode
  simp only [Node.partsOf?, beq_self_eq_true, if_true, hnodes, hnone]
  rfl

section
variable {next : Symbol → Context → List Part → List Char → Outcome} {c : Context}
  {path : String} {rest : List Char}

/-- A source alone, behind a space. -/
theorem gives_importRest_bare (hc : c.dialect.hasTypes = false) :
    Gives next importRest c (' ' :: ((Text.quote path).toList ++ rest))
      [.text " ", .node (.token "string" (Text.quote path))] rest := by
  have hquote := head?_quote path rest
  have hat : AtToken .js ((Text.quote path).toList ++ rest) :=
    atToken_of_head? hquote (by decide) (by decide)
  have hword : (Lexeme.name []).size? ((Text.quote path).toList ++ rest) = none := by
    cases hs : (Text.quote path).toList ++ rest with
    | nil => rfl
    | cons k s =>
        rw [hs] at hquote
        obtain rfl : k = '"' := Option.some.inj hquote
        rfl
  -- no clause starts with a quote
  have hwhole : Refuses next namespaceImport c ((Text.quote path).toList ++ rest) :=
    Refuses.node hat.noGap (refuses_token hat.noGap (sign_size?_eq_none hquote (by decide))).row
  have hnamed : Refuses next namedImports c ((Text.quote path).toList ++ rest) :=
    Refuses.node hat.noGap (refuses_token hat.noGap (sign_size?_eq_none hquote (by decide))).row
  have hname : Refuses next (Rule.row [Rule.anyName, Rule.opt (Rule.row
      [Rule.sign ",", .either namespaceImport namedImports])]) c
      ((Text.quote path).toList ++ rest) :=
    (refuses_token hat.noGap hword).row
  have hclause : Refuses next (Rule.row [importClause, fromClause]) c
      (' ' :: ((Text.quote path).toList ++ rest)) :=
    (Refuses.node hat.readGap_space (hwhole.either (hnamed.either hname))).row
  have hstring : Gives next (Rule.token "string" .string) c
      (' ' :: ((Text.quote path).toList ++ rest))
      [.text " ", .node (.leaf "string" (String.ofList (Text.quote path).toList))] rest :=
    gives_token hat.readGap_space (string_size?_quote path rest)
  rw [String.ofList_toList] at hstring
  exact hclause.right ((refuses_typed hc).right hstring)

end

end Grammar

namespace ImportDecl.IsBuilt

open Grammar

variable {decl : ImportDecl}

/-- The specifiers, told by a name and by what stands beside it. -/
theorem shape (h : decl.IsBuilt) :
    ∃ (main : Option String) (others : List Specifier),
      decl.specifiers = main.toList.map (fun x => .byDefault (some x)) ++ others
      ∧ (∀ x ∈ main, Grammar.IsWord x.toList)
      ∧ (others = [] ∨ ∃ text n, Grammar.IsClause others text n) := by
  obtain ⟨-, hplain, main, others, hspecifiers, ⟨hone, hmain⟩, hothers⟩ := h
  rw [hspecifiers] at hplain
  -- what stands beside the name
  have hclause : others = [] ∨ ∃ text n, Grammar.IsClause others text n := by
    cases others with
    | nil => exact .inl rfl
    | cons x xs =>
        right
        have hx : x.isPlain = true :=
          hplain x (List.mem_append_right _ List.mem_cons_self)
        rcases hothers with ⟨hlength, hwhole⟩ | hnamed
        · obtain rfl : xs = [] := List.length_eq_zero_iff.1 (by
            rw [List.length_cons] at hlength
            omega)
          have hxw := hwhole x List.mem_cons_self
          cases x with
          | whole bound =>
              cases bound with
              | none => cases hx
              | some bound => exact ⟨_, _, Grammar.isClause_whole (Grammar.isWord_of_isPlainName hx)⟩
          | byDefault | named | typeOnly => cases hxw
        · exact ⟨_, _, Grammar.isClause_named (fun y hy => Grammar.isWordEntry_of_isPlain
            (hplain y (List.mem_append_right _ hy)) (hnamed y hy)) hnamed⟩
  cases main with
  | nil => exact ⟨none, others, hspecifiers, fun _ hx => (by cases hx), hclause⟩
  | cons x xs =>
      obtain rfl : xs = [] := List.length_eq_zero_iff.1 (by
        rw [List.length_cons] at hone
        omega)
      have hx : x.isPlain = true := hplain x (List.mem_append_left _ List.mem_cons_self)
      have hxm := hmain x List.mem_cons_self
      cases x with
      | byDefault bound =>
          cases bound with
          | none => cases hx
          | some bound =>
              refine ⟨some bound, others, hspecifiers, fun y hy => ?_, hclause⟩
              obtain rfl := Option.some.inj hy
              exact Grammar.isWord_of_isPlainName hx
      | whole | named | typeOnly => cases hxm

/-- None of the specifiers is a type. -/
theorem isTypeOnly_eq_false (h : decl.IsBuilt) : decl.isTypeOnly = false := by
  unfold ImportDecl.isTypeOnly
  cases hspecifiers : decl.specifiers with
  | nil => rfl
  | cons x xs =>
      have hx : x.isPlain = true := h.plain x (hspecifiers ▸ List.mem_cons_self)
      cases x with
      | typeOnly => cases hx
      | byDefault | whole | named => rfl

/-- **What is spelled is read as one node, and this declares what was spelled.** -/
theorem exists_node (h : decl.IsBuilt) {d : Dialect} (hd : d.hasTypes = false) :
    ∃ n more, n.isSettled = true
      ∧ ImportDecl.ofNode? n = some
        { specifiers := decl.specifiers
          source := quotedText (Text.quote decl.source)
          raw := some n.spelling }
      ∧ decl.spelling.toList = "import".toList ++ (' ' :: more)
      ∧ ∀ next, step next importStatement { dialect := d } [] ("import".toList ++ (' ' :: more))
        = .done [.node n] [] := by
  obtain ⟨main, others, hspecifiers, hmain, hothers⟩ := h.shape
  have htypes := h.isTypeOnly_eq_false
  obtain ⟨specifiers, source, raw⟩ := decl
  obtain rfl : raw = none := h.raw
  subst hspecifiers
  show ∃ n more, _ ∧ _ ∧ (ImportDecl.spellFields _).toList = _ ∧ _
  unfold ImportDecl.spellFields
  by_cases hclauses : ImportDecl.clauses
      { specifiers := main.toList.map (fun x => .byDefault (some x)) ++ others, source := source } = []
  · -- without a clause there is no specifier either
    have hnone : main = none ∧ others = [] := by
      rcases hothers with rfl | ⟨text, n, hclause⟩
      · cases main with
        | none => exact ⟨rfl, rfl⟩
        | some x => cases hclauses
      · have htext := hclause.clauses main source
        rw [hclauses] at htext
        simp at htext
    obtain ⟨rfl, rfl⟩ := hnone
    refine ⟨bareNode source, (Text.quote source).toList ++ [';'], rfl, ofNode?_bareNode source, ?_,
      fun next => step_importStatement_of_rest
        ((refuses_typed hd).right (gives_importRest_bare hd) _)⟩
    rw [hclauses, List.isEmpty_nil, if_pos rfl]
    simp
  · obtain ⟨clause, hsettled, hspecifiers, hgives⟩ := exists_clause hmain hothers source hclauses
    refine ⟨importNode clause source, _, ?_, ?_, ?_, fun next => step_importStatement_of_rest
      ((refuses_typed hd).right (hgives next _ source [';']).importRest _)⟩
    · show (Part.areSettled clause && true) = true
      rw [hsettled]
      rfl
    · rw [ofNode?_importNode, hspecifiers]
    · have himport : "import ".toList = "import".toList ++ [' '] := by decide
      have hfrom : " from ".toList = ' ' :: ("from".toList ++ [' ']) := by decide
      have hsemicolon : ";".toList = [';'] := rfl
      rw [List.isEmpty_eq_false_iff.2 hclauses, htypes]
      simp only [Bool.false_eq_true, if_false, String.toList_append, himport, hfrom, hsemicolon,
        fromText, List.append_assoc, List.cons_append, List.nil_append]

end ImportDecl.IsBuilt

/-! ## §5. Reading what was written. -/

/-- What stands in the literal of a text. -/
theorem quotedText_quote (s : String) :
    quotedText (Text.quote s) = String.ofList (s.toList.flatMap Text.escape) := by
  unfold quotedText Text.quote
  rw [String.toList_ofList]
  simp [quotedText.isQuote]

namespace ImportDecl

variable {d : Dialect} {decl : ImportDecl}

/-- **A declaration that was built is read again as it is**, but for its text and
the escapes of its source. -/
theorem ofSource_spelling (hd : d.hasTypes = false) (h : decl.IsBuilt) :
    Program.ofSource d decl.spelling
        = .ok ⟨[.importing
            { specifiers := decl.specifiers
              source := String.ofList (decl.source.toList.flatMap Text.escape)
              raw := some decl.spelling }]⟩
      ∧ (String.ofList (decl.source.toList.flatMap Text.escape) = decl.source
        ↔ ∀ c ∈ decl.source.toList, c ≠ '"' ∧ c ≠ '\\' ∧ Text.isControl c = false) := by
  constructor
  · obtain ⟨n, more, hsettled, hdecl, htext, hstep⟩ := h.exists_node hd
    have hempty : decl.spelling.toList ++ [] = "import".toList ++ (' ' :: more) := by
      rw [List.append_nil, htext]
    obtain ⟨hfirst, hspelling⟩ := Grammar.firstPiece_of_import true hempty (n := n) (d := d) (by
      rw [hempty]
      exact hstep _)
    rw [List.append_nil] at hfirst
    rw [quotedText_quote, String.toList_inj.1 hspelling] at hdecl
    -- the node is all of the text
    have hpieces : Grammar.Pieces d true decl.spelling.toList [n] := by
      refine .next hfirst ?_
      rw [hspelling, List.drop_length]
      exact .done
    rw [Program.ofSource_eq_ok_iff, Program.ofSource?_eq_some_iff]
    refine ⟨[n], hpieces, fun m hm => ?_, ?_⟩
    · rw [List.mem_singleton.1 hm]
      exact hsettled
    · rw [List.map_singleton, Statement.ofNode, hdecl]
  · rw [← Text.flatMap_escape_eq_iff, ← String.toList_inj, String.toList_ofList]

/-- `import type, { default as from, as } from "a\"b";`: words that mean something
of their own in a declaration are names as well. -/
def wordsDecl : ImportDecl where
  specifiers := [.byDefault (some "type"), .named (some "default") (some "from"),
    .named (some "as") (some "as")]
  source := "a\"b"

theorem isBuilt_wordsDecl : wordsDecl.IsBuilt where
  raw := rfl
  plain := by decide
  order := ⟨[.byDefault (some "type")],
    [.named (some "default") (some "from"), .named (some "as") (some "as")], rfl,
    ⟨by decide, by decide⟩, .inr (by decide)⟩

theorem ofSource_spelling_words :
    Program.ofSource .js wordsDecl.spelling
      = .ok ⟨[.importing
          { specifiers := wordsDecl.specifiers
            source := "a\\\"b"
            raw := some "import type, \x7b default as from, as \x7d from \"a\\\"b\";" }]⟩
      ∧ Dialect.js.hasTypes = false ∧ wordsDecl.IsBuilt := by
  have hsource : String.ofList (wordsDecl.source.toList.flatMap Text.escape) = "a\\\"b" := by
    decide
  have hspelling : wordsDecl.spelling
      = "import type, \x7b default as from, as \x7d from \"a\\\"b\";" := by
    decide
  have hread := (@ofSource_spelling .js wordsDecl rfl isBuilt_wordsDecl).1
  rw [hsource, hspelling] at hread
  exact ⟨hspelling ▸ hread, rfl, isBuilt_wordsDecl⟩

end ImportDecl

end ImportSplit
