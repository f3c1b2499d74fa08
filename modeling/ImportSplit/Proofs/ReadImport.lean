/-
  ImportSplit.Proofs.ReadImport
  ────────────────────────────────
  **IMPORT STATEMENTS THAT ARE READ.**

  Two texts of import statements are followed through the grammar:

      `import name from "path";`     is read as exactly this declaration (§1)
      `import type { … } from …`     is never read as a declaration (§2)

  The first is followed forward with `step`, token after token, since it has
  to be shown that no other rule takes the text.  For the second it is enough
  to look at what a derivation could have gone through.
-/
import ImportSplit.Proofs.Forward

namespace ImportSplit

namespace Grammar

/-! ## §1. An import by default. -/

section
variable {next : Symbol → Context → List Part → List Char → Outcome} {c : Context}
  {row : List Part}

/-- ` from "path"`, before the rest of a text. -/
def fromText (path : String) (rest : List Char) : List Char :=
  ' ' :: ("from".toList ++ (' ' :: ((Text.quote path).toList ++ rest)))

/-- The parts of ` from "path"`, the latest first. -/
def fromParts (path : String) : List Part :=
  [.node (.token "string" (Text.quote path)), .text " ", .node (.token "from" "from"), .text " "]

theorem isWord_from : IsWord "from".toList := by decide

theorem head?_quote (path : String) (rest : List Char) :
    ((Text.quote path).toList ++ rest).head? = some '"' := by
  unfold Text.quote
  rw [String.toList_ofList]
  rfl

theorem readGap_fromText (path : String) (rest : List Char) :
    readGap false (fromText path rest) [] (fromText path rest)
      = ([.text " "], "from".toList ++ (' ' :: ((Text.quote path).toList ++ rest))) :=
  (isWord_from.atToken (d := .js) _).readGap_space

theorem step_fromClause (path : String) (rest : List Char) :
    step next fromClause c row (fromText path rest) = .done (fromParts path ++ row) rest := by
  -- the keyword, then the string, each behind a space
  have hkeyword : step next (Rule.keyword "from") c row (fromText path rest)
      = .done (.node (.token "from" "from") :: .text " " :: row)
        (' ' :: ((Text.quote path).toList ++ rest)) :=
    step_token (readGap_fromText path rest)
      ((keyword_size? isWord_from (endsWord_space _)).trans (if_pos rfl))
  have hquote : AtToken .js ((Text.quote path).toList ++ rest) :=
    atToken_of_head? (head?_quote path rest) (by decide) (by decide)
  have hstring : ∀ row, step next (Rule.token "string" .string) c row
      (' ' :: ((Text.quote path).toList ++ rest))
      = .done (.node (.token "string" (Text.quote path)) :: .text " " :: row) rest := by
    intro row
    have hread : step next (Rule.token "string" .string) c row
        (' ' :: ((Text.quote path).toList ++ rest))
        = .done (.node (.leaf "string" (String.ofList (Text.quote path).toList)) :: .text " " :: row)
          rest :=
      step_token hquote.readGap_space (string_size?_quote path rest)
    rwa [String.ofList_toList] at hread
  calc step next fromClause c row (fromText path rest)
      = step next (Rule.row [Rule.token "string" .string]) c
          (.node (.token "from" "from") :: .text " " :: row)
          (' ' :: ((Text.quote path).toList ++ rest)) := step_row hkeyword
    _ = .done (fromParts path ++ row) rest := hstring _

/-- A clause that starts with a word, behind a space. -/
theorem gives_importClause {x : String} {u rest : List Char} {ps : List Part}
    (hx : IsWord x.toList) (hu : EndsWord u)
    (hmore : Gives next (Rule.opt (Rule.row
      [Rule.sign ",", .either namespaceImport namedImports])) c u ps rest) :
    Gives next importClause c (' ' :: (x.toList ++ u))
      [.text " ", .node (.construct "import_clause" (.node (.identifier x) :: ps))] rest := by
  have hstart : AtToken .js (x.toList ++ u) := hx.atToken u
  -- a word starts with neither of the two signs
  have hwhole : Refuses next namespaceImport c (x.toList ++ u) :=
    Refuses.node hstart.noGap
      (refuses_token hstart.noGap (hx.sign_size? (by decide) (by decide) _ _)).row
  have hnamed : Refuses next namedImports c (x.toList ++ u) :=
    Refuses.node hstart.noGap
      (refuses_token hstart.noGap (hx.sign_size? (by decide) (by decide) _ _)).row
  have hname : Gives next Rule.anyName c (x.toList ++ u) [.node (.identifier x)] u :=
    gives_word hx hu hstart.noGap
  exact Gives.node hstart.readGap_space (hwhole.right (hnamed.right (hname.row hmore.last)))

/-- The clause of one word, behind a space. -/
theorem gives_importClause_alone {x : String} {u : List Char} {e : Char} (hx : IsWord x.toList)
    (hu : AtToken .js u) (hhead : u.head? = some e) (hcomma : ',' ≠ e) :
    Gives next importClause c (' ' :: (x.toList ++ (' ' :: u)))
      [.text " ", .node (.construct "import_clause" [.node (.identifier x)])] (' ' :: u) := by
  have hrefuses : Refuses next (Rule.sign ",") c (' ' :: u) :=
    refuses_token hu.readGap_space (sign_size?_eq_none hhead hcomma)
  exact gives_importClause hx (endsWord_space u) hrefuses.row.opt

/-- `name from "path"` behind a space. -/
theorem step_importRest {name : String} (hname : IsWord name.toList) (path : String)
    (rest : List Char) :
    step next importRest c row (' ' :: (name.toList ++ fromText path rest))
      = .done (fromParts path ++ .node (.construct "import_clause" [.node (.identifier name)])
          :: .text " " :: row) rest := by
  have hclause : Gives next importClause c (' ' :: (name.toList ++ fromText path rest)) _
      (fromText path rest) :=
    gives_importClause_alone hname (isWord_from.atToken _) rfl (by decide)
  exact step_oneOf ((step_row (hclause row)).trans (step_fromClause path rest))

/-- A name is missing before `from "path"`: the word is the name, and nothing
says where it comes from. -/
theorem step_importRest_refused (path : String) (rest : List Char) :
    step next importRest c row (fromText path rest) = .refused := by
  have hquote := head?_quote path rest
  have hstart : AtToken .js ((Text.quote path).toList ++ rest) :=
    atToken_of_head? hquote (by decide) (by decide)
  -- first rule: `from` is taken for the name, and then the keyword is missing
  have hclause : step next importClause c row (fromText path rest)
      = .done (.node (.construct "import_clause" [.node (.identifier "from")]) :: .text " " :: row)
        (' ' :: ((Text.quote path).toList ++ rest)) :=
    gives_importClause_alone isWord_from hstart hquote (by decide) row
  have hgap : readGap false (' ' :: ((Text.quote path).toList ++ rest)) []
      (' ' :: ((Text.quote path).toList ++ rest)) = ([.text " "], (Text.quote path).toList ++ rest) :=
    hstart.readGap_space
  have hkeyword : (Lexeme.keyword "from".toList).size? ((Text.quote path).toList ++ rest) = none := by
    cases hs : (Text.quote path).toList ++ rest with
    | nil => rfl
    | cons k s =>
        rw [hs] at hquote
        obtain rfl : k = '"' := Option.some.inj hquote
        rfl
  have hfrom : step next (Rule.row [importClause, fromClause]) c row (fromText path rest)
      = .refused :=
    (step_row hclause).trans (step_row_refused (r := fromClause)
      (step_row_refused (step_token_refused hgap hkeyword)))
  -- second rule: behind the name an equals sign is missing
  have hname : step next Rule.anyName c []
      ("from".toList ++ (' ' :: ((Text.quote path).toList ++ rest)))
      = .done [.node (.identifier "from")] (' ' :: ((Text.quote path).toList ++ rest)) :=
    step_token ((isWord_from.atToken (d := .js) _).noGap)
      (name_size? [] isWord_from (endsWord_space _))
  have hrequire : step next (Rule.node "import_require_clause"
      (Rule.row [Rule.anyName, Rule.sign "=", Rule.keyword "require",
        Rule.enclosed "(" ")" (Rule.token "string" .string)])) c row (fromText path rest)
      = .refused :=
    step_node_refused (readGap_fromText path rest) ((step_row hname).trans
      (step_row_refused (step_token_refused hgap (sign_size?_eq_none hquote (by decide)))))
  -- third rule: the text does not start with a quote
  have hstring : step next (Rule.token "string" .string) c row (fromText path rest) = .refused :=
    step_token_refused (readGap_fromText path rest) (string_size?_eq_none rfl (by decide))
  calc step next importRest c row (fromText path rest)
      = step next (Rule.oneOf [Rule.typed (Rule.node "import_require_clause"
          (Rule.row [Rule.anyName, Rule.sign "=", Rule.keyword "require",
            Rule.enclosed "(" ")" (Rule.token "string" .string)])),
          Rule.token "string" .string]) c row (fromText path rest) := step_oneOf_refused hfrom
    _ = step next (Rule.token "string" .string) c row (fromText path rest) :=
        step_oneOf_refused (step_typed_refused hrequire)
    _ = .refused := hstring

/-- A statement does not end of itself before a semicolon. -/
theorem absorbed?_semicolon (d : Dialect) (operators : Bool) (rest : List Char) :
    Semicolon.absorbed? d operators (';' :: rest) = none := by
  have hends : Semicolon.endsHere d operators (';' :: rest) = false := by
    cases d <;> rfl
  unfold Semicolon.absorbed? Semicolon.absorbed?.go
  rw [hends]
  rfl

theorem step_semicolon (operators : Bool) (rest : List Char) :
    step next (Rule.semicolon operators) c row (';' :: rest)
      = .done (.node (.token ";" ";") :: row) rest := by
  have habsorbed : c.absorbed? operators (';' :: rest) = none := by
    unfold Context.absorbed?
    rw [absorbed?_semicolon]
    exact ite_self _
  have hstart : AtToken .js (';' :: rest) := atToken_of_head? rfl (by decide) (by decide)
  have hsign : step next (Rule.sign ";") c row (';' :: rest)
      = .done (.node (.token ";" ";") :: row) rest :=
    step_token (t := [';']) (hstart.noGap) rfl
  simp only [Rule.semicolon, step, habsorbed, hsign]

theorem step_importAttributes (rest : List Char) :
    step next importAttributes c row (';' :: rest) = .done row (';' :: rest) := by
  have hstart : AtToken .js (';' :: rest) := atToken_of_head? rfl (by decide) (by decide)
  have hgap : readGap false (';' :: rest) [] (';' :: rest) = ([], ';' :: rest) :=
    hstart.noGap
  have hwith : step next (Rule.keyword "with") c [] (';' :: rest) = .refused :=
    step_token_refused hgap rfl
  have hassert : step next (Rule.typed (Rule.keyword "assert")) c [] (';' :: rest) = .refused :=
    step_typed_refused (step_token_refused hgap rfl)
  have hword : step next (Rule.row [.either (Rule.keyword "with") (Rule.typed (Rule.keyword "assert")),
      .call .object]) c [] (';' :: rest) = .refused := by
    refine step_row_refused ?_
    rw [step, hwith]
    exact hassert
  refine step_opt_refused (step_node_refused hgap ?_)
  -- whether or not the statement could end here, no attributes follow
  by_cases hends : (c.mayEnd && (c.absorbed? false (';' :: rest)).isSome) = true
  · refine step_row_refused ?_
    rw [step, if_pos hends]
  · have hstays : step next (.stays false) c [] (';' :: rest) = .done [] (';' :: rest) := by
      rw [step, if_neg hends]
    exact (step_row hstays).trans hword

/-- The text of an import by default, before the rest of a text. -/
def defaultText (name path : String) (rest : List Char) : List Char :=
  "import".toList ++ (' ' :: (name.toList ++ fromText path (';' :: rest)))

/-- The node of an import with the given clause. -/
def importNode (clause : List Part) (path : String) : Node :=
  .construct "import_statement"
    [.node (.token "import" "import"), .text " ", .node (.construct "import_clause" clause),
      .text " ", .node (.token "from" "from"), .text " ",
      .node (.token "string" (Text.quote path)), .node (.token ";" ";")]

/-- The node that an import by default is read as. -/
def defaultNode (name path : String) : Node :=
  importNode [.node (.identifier name)] path

theorem isWord_import : IsWord "import".toList := by decide

/-- The mark of types is refused where a word stands, unless the word is the mark
itself; then what follows the word is left. -/
theorem step_typeMark_cases (next : Symbol → Context → List Part → List Char → Outcome)
    (c : Context) (row : List Part) {t s rest : List Char} {g : List Part} (ht : IsWord t)
    (hends : EndsWord rest) (hgap : readGap false s [] s = (g, t ++ rest)) :
    step next (.either (Rule.keyword "type") (Rule.keyword "typeof")) c row s = .refused
      ∨ ∃ row', step next (.either (Rule.keyword "type") (Rule.keyword "typeof")) c row s
        = .done row' rest := by
  have hword : ∀ w : String, step next (Rule.keyword w) c row s = .refused
      ∨ ∃ row', step next (Rule.keyword w) c row s = .done row' rest := by
    intro w
    have hsize := keyword_size? (w := w.toList) ht hends
    by_cases hw : t = w.toList
    · rw [if_pos hw] at hsize
      exact .inr ⟨_, step_token hgap hsize⟩
    · rw [if_neg hw] at hsize
      exact .inl (step_token_refused hgap hsize)
  rw [step]
  rcases hword "type" with htype | ⟨row', htype⟩
  · rw [htype]
    exact hword "typeof"
  · rw [htype]
    exact .inr ⟨row', rfl⟩

/-- What follows the word `import`.  A name `type` is no mark of a type import
here, because no import could follow it. -/
theorem step_defaultRest {name : String} (hname : IsWord name.toList) (path : String)
    (rest : List Char) :
    step next (.either (Rule.typed (Rule.row
        [.either (Rule.keyword "type") (Rule.keyword "typeof"), importRest])) importRest) c row
        (' ' :: (name.toList ++ fromText path rest))
      = .done (fromParts path ++ .node (.construct "import_clause" [.node (.identifier name)])
          :: .text " " :: row) rest := by
  have hrefused : step next (Rule.typed (Rule.row
      [.either (Rule.keyword "type") (Rule.keyword "typeof"), importRest])) c row
      (' ' :: (name.toList ++ fromText path rest)) = .refused := by
    have hgap := (hname.atToken (d := .js) (fromText path rest)).readGap_space
    have hmark := step_typeMark_cases next c row hname (endsWord_space _) hgap
    -- a mark that was read leaves no clause to be read behind it
    rcases hmark with hmark | ⟨row', hmark⟩
    · exact step_typed_refused (step_row_refused hmark)
    · exact step_typed_refused ((step_row hmark).trans (step_importRest_refused path rest))
  rw [step, hrefused]
  exact step_importRest hname path rest

/-- An import is read where a semicolon follows what is imported from where. -/
theorem step_importStatement_of_rest {more rest : List Char} {inner : List Part}
    (hrest : step next (.either (Rule.typed (Rule.row
        [.either (Rule.keyword "type") (Rule.keyword "typeof"), importRest])) importRest) c
        [.node (.token "import" "import")] (' ' :: more) = .done inner (';' :: rest)) :
    step next importStatement c row ("import".toList ++ (' ' :: more))
      = .done (.node (.construct "import_statement" (.node (.token ";" ";") :: inner).reverse)
          :: row) rest := by
  have hgap : readGap false ("import".toList ++ (' ' :: more)) [] ("import".toList ++ (' ' :: more))
      = ([], "import".toList ++ (' ' :: more)) :=
    (isWord_import.atToken (d := .js) _).noGap
  have hkeyword : step next (Rule.keyword "import") c [] ("import".toList ++ (' ' :: more))
      = .done [.node (.token "import" "import")] (' ' :: more) :=
    step_token hgap ((keyword_size? isWord_import (endsWord_space _)).trans (if_pos rfl))
  have hinner : step next (Rule.row [Rule.keyword "import",
      .either (Rule.typed (Rule.row
        [.either (Rule.keyword "type") (Rule.keyword "typeof"), importRest])) importRest,
      importAttributes, Rule.semicolon false]) c [] ("import".toList ++ (' ' :: more))
      = .done (.node (.token ";" ";") :: inner) rest := by
    rw [step_row hkeyword, step_row hrest, step_row (step_importAttributes rest)]
    exact step_semicolon false rest
  exact step_node hgap hinner

/-- **`import name from "path";` is read as this import.** -/
theorem step_importStatement {name : String} (hname : IsWord name.toList) (path : String)
    (rest : List Char) :
    step next importStatement c row (defaultText name path rest)
      = .done (.node (defaultNode name path) :: row) rest :=
  step_importStatement_of_rest (step_defaultRest hname path _)

/-- No rule of statements before that of imports takes what starts with `import`. -/
theorem step_statementRules_of_import {more rest : List Char} {row' : List Part} {depth : Nat}
    (himport : step (read rule (depth + 1)) importStatement c row
      ("import".toList ++ (' ' :: more)) = .done row' rest) :
    step (read rule (depth + 1)) (Rule.oneOf statementRules) c row
      ("import".toList ++ (' ' :: more)) = .done row' rest := by
  generalize hs : "import".toList ++ (' ' :: more) = s at himport
  have hgap : readGap false s [] s = ([], s) := by
    rw [← hs]
    exact (isWord_import.atToken (d := .js) _).noGap
  have hsign : ∀ k, k ≠ 'i' → ∀ cs butNot, (Lexeme.sign (k :: cs) butNot).size? s = none := by
    intro k hk cs butNot
    exact sign_size?_eq_none (e := 'i') (by rw [← hs]; rfl) hk
  -- a block, an empty statement and an export start with other tokens
  have hblock : step (read rule (depth + 1)) (.seq (.call .block) (Rule.opt (.ends false))) c row s
      = .refused := by
    have hcall : step (read rule (depth + 1)) (.call .block) c row s = .refused := by
      rw [step, read]
      exact step_node_refused hgap
        (step_row_refused (step_token_refused hgap (hsign _ (by decide) _ _)))
    rw [step, hcall]
  have hempty : step (read rule (depth + 1)) (Rule.token "empty_statement" (.sign [';'] [])) c row s
      = .refused :=
    step_token_refused hgap (hsign _ (by decide) _ _)
  have hexport : step (read rule (depth + 1)) exportStatement c row s = .refused := by
    have hdecorators : step (read rule (depth + 1)) (.many decorator) c [] s = .done [] s :=
      step_many_refused (step_node_refused hgap
        (step_row_refused (step_token_refused hgap (hsign _ (by decide) _ _))))
    have hkeyword : (Lexeme.keyword "export".toList).size? s = none := by
      rw [← hs]
      exact (keyword_size? isWord_import (endsWord_space _)).trans (if_neg (by decide))
    exact step_node_refused hgap
      ((step_row hdecorators).trans (step_row_refused (step_token_refused hgap hkeyword)))
  unfold statementRules
  rw [step_oneOf_refused hblock, step_oneOf_refused hempty, step_oneOf_refused hexport]
  exact step_oneOf himport

theorem step_statementRules {name : String} (hname : IsWord name.toList) (path : String)
    (rest : List Char) (depth : Nat) :
    step (read rule (depth + 1)) (Rule.oneOf statementRules) c row (defaultText name path rest)
      = .done (.node (defaultNode name path) :: row) rest :=
  step_statementRules_of_import (step_importStatement hname path rest)

end

theorem spelling_defaultNode (name path : String) (rest : List Char) :
    (defaultNode name path).spelling.toList ++ rest = defaultText name path rest := by
  have hspace : " ".toList = [' '] := rfl
  have hsemicolon : ";".toList = [';'] := rfl
  unfold defaultNode importNode defaultText fromText
  simp only [Node.spelling, Part.spelling, Part.spellingOfList, String.toList_append, hspace,
    hsemicolon, List.append_assoc, List.cons_append, List.nil_append]
  rfl

/-- A literal is no keyword that marks types. -/
theorem isToken_quote (path : String) :
    (Node.token "string" (Text.quote path)).isToken "type" = false
      ∧ (Node.token "string" (Text.quote path)).isToken "typeof" = false := by
  -- it starts with a quote
  have hquote : ∀ w : String, w.toList.head? ≠ some '"' → Text.quote path ≠ w := by
    rintro w hw rfl
    have hhead := head?_quote path []
    rw [List.append_nil] at hhead
    exact hw hhead
  exact ⟨beq_false_of_ne (hquote _ (by decide)), beq_false_of_ne (hquote _ (by decide))⟩

/-- What is declared by an import with a clause. -/
theorem ofNode?_importNode (clause : List Part) (path : String) :
    ImportDecl.ofNode? (importNode clause path)
      = some
        { specifiers := (Part.nodes clause).flatMap Specifier.ofClauseNode
          source := quotedText (Text.quote path)
          raw := some (importNode clause path).spelling } := by
  obtain ⟨htype, htypeof⟩ := isToken_quote path
  have hnodes : Part.nodes
      [.node (.token "import" "import"), .text " ", .node (.construct "import_clause" clause),
        .text " ", .node (.token "from" "from"), .text " ",
        .node (.token "string" (Text.quote path)), .node (.token ";" ";")]
      = [.token "import" "import", .construct "import_clause" clause, .token "from" "from",
        .token "string" (Text.quote path), .token ";" ";"] := rfl
  have hnone : (([.token "import" "import", .construct "import_clause" clause,
      .token "from" "from", .token "string" (Text.quote path), .token ";" ";"] : List Node).any
        fun n => n.isToken "type" || n.isToken "typeof" || n.kind == "import_require_clause")
      = false := by
    simp only [List.any_cons, htype, htypeof]
    rfl
  unfold ImportDecl.ofNode? importNode
  simp only [Node.partsOf?, beq_self_eq_true, if_true, hnodes, hnone]
  refine congrArg some ?_
  show ImportDecl.mk ((Part.nodes clause).flatMap Specifier.ofClauseNode ++ []) _ _ = _
  rw [List.append_nil]
  rfl

theorem ofNode?_defaultNode (name path : String) :
    ∃ decl, ImportDecl.ofNode? (defaultNode name path) = some decl
      ∧ decl.specifiers = [.byDefault (some name)] :=
  ⟨_, ofNode?_importNode _ path, rfl⟩

/-- An import that is read is the piece at the front. -/
theorem firstPiece_of_import {d : Dialect} (before : Bool) {t more rest : List Char} {n : Node}
    (htext : t ++ rest = "import".toList ++ (' ' :: more))
    (himport : step (read rule (40 * (t ++ rest).length + 6)) importStatement { dialect := d } []
      (t ++ rest) = .done [.node n] rest) :
    firstPiece d before (t ++ rest) = some n ∧ n.spelling.toList = t := by
  have hat : AtToken d (t ++ rest) := by
    rw [htext]
    exact isWord_import.atToken _
  have hout : readStatement { dialect := d } (t ++ rest) = .done [.node n] rest := by
    rw [readStatement_deep hat]
    rw [htext] at himport ⊢
    exact step_statementRules_of_import himport
  obtain ⟨tail, m, rest', hrow, hfirst, -⟩ :=
    firstPiece_of_readStatement before hat (fun _ => by rw [htext]; rfl) hout
  obtain rfl : n = m := eq_of_append_node [] tail hrow
  refine ⟨hfirst, ?_⟩
  -- what was read is all of the text before the rest
  have hlossless := step_lossless (read_lossless rule _) _ _ _ _ _ _ himport
  rw [rowText_cons, rowText_nil, List.nil_append, List.nil_append] at hlossless
  exact List.append_cancel_right hlossless

namespace Segments

variable {d : Dialect} {ns : List Node}

/-- **Where an import by default stands, it is the first node.** -/
theorem of_default {name path : String} {rest : List Char} (hname : IsWord name.toList)
    (h : Segments d (defaultText name path rest) ns) :
    ∃ ns', ns = defaultNode name path :: ns' ∧ Segments d rest ns' := by
  obtain ⟨n, ns', rest', rfl, htext, hread, hrest⟩ := h.of_head? rfl (by decide)
  obtain ⟨depth, row, tail, s', -, hstep⟩ := hread.step_of_head? htext rfl (by decide)
  rw [step_statementRules hname] at hstep
  obtain rfl : n = defaultNode name path :=
    eq_of_append_node tail [] (Outcome.done.inj hstep).1.symm
  rw [← spelling_defaultNode] at htext
  rw [← List.append_cancel_left htext] at hrest
  exact ⟨ns', rfl, hrest⟩

end Segments

/-! ## §2. An import of types. -/

namespace Rule

variable {ν : Type}

/-- The rule only adds to its row. -/
def keepsRow : Rule ν → Bool
  | wrap .. | call _ => false
  | seq first second | either first second => keepsRow first && keepsRow second
  | many r | within _ r => keepsRow r
  | _ => true

end Rule

theorem Reads.keepsRow {ν : Type} {rules : ν → Rule ν} {r : Rule ν} {c : Context}
    {row row' : List Part} {s s' : List Char} (h : Reads rules r c row s row' s')
    (hr : r.keepsRow = true) : ∀ p ∈ row, p ∈ row' := by
  induction h with
  | nothing | stays | stop | ahead | notAhead | holds | given => exact fun _ hp => hp
  | leaf => exact fun _ hp => List.mem_cons_of_mem _ hp
  | gap | ends => exact fun _ hp => List.mem_append_right _ hp
  | scope => exact fun _ hp => List.mem_append_right _ (List.mem_append_right _ hp)
  | seq _ _ ih₁ ih₂ =>
      obtain ⟨hfirst, hsecond⟩ := Bool.and_eq_true _ _ ▸ hr
      exact fun p hp => ih₂ hsecond p (ih₁ hfirst p hp)
  | again _ _ ih₁ ih₂ => exact fun p hp => ih₂ hr p (ih₁ hr p hp)
  | left _ ih => exact ih (Bool.and_eq_true _ _ ▸ hr).1
  | right _ ih => exact ih (Bool.and_eq_true _ _ ▸ hr).2
  | wrap | call => cases hr
  | within _ ih => exact ih hr

/-- No import declaration is read behind `import` where `type {` stands. -/
theorem not_reads_importRest {c : Context} {row row' : List Part} {s' rest : List Char}
    (h : Reads rule importRest c row (' ' :: ("type".toList ++ (' ' :: '\x7b' :: rest))) row' s') :
    False := by
  have hword : IsWord "type".toList := by decide
  have htype : AtToken .js ("type".toList ++ (' ' :: '\x7b' :: rest)) := hword.atToken _
  have hbrace : AtToken .js ('\x7b' :: rest) := atToken_of_head? rfl (by decide) (by decide)
  have hgap : readGap false ("type".toList ++ (' ' :: '\x7b' :: rest)) []
      ("type".toList ++ (' ' :: '\x7b' :: rest)) = ([], "type".toList ++ (' ' :: '\x7b' :: rest)) :=
    htype.noGap
  -- the word can only be read as a name, and then the brace follows
  have hname : ∀ {row row' s'}, Reads rule Rule.anyName c row
      ("type".toList ++ (' ' :: '\x7b' :: rest)) row' s' → s' = ' ' :: '\x7b' :: rest := by
    intro row row' s' h
    obtain ⟨n, hsize, -, rfl⟩ := reads_token h hgap
    have hfour := name_size? [] hword (endsWord_space ('\x7b' :: rest))
    obtain rfl : n = "type".toList.length := Option.some.inj (hsize.symm.trans hfour)
    exact List.drop_left
  have hsign : ∀ {k cs butNot kind row row' s'}, k ≠ '\x7b' →
      Reads rule (Rule.token kind (.sign (k :: cs) butNot)) c row (' ' :: '\x7b' :: rest) row' s' →
      False := by
    intro k cs butNot kind row row' s' hk h
    obtain ⟨n, hsize, -, -⟩ := reads_token h hbrace.readGap_space
    rw [sign_size?_eq_none rfl hk] at hsize
    cases hsize
  have hstart : ∀ {k cs butNot kind row row' s'}, k ≠ 't' →
      Reads rule (Rule.token kind (.sign (k :: cs) butNot)) c row
        ("type".toList ++ (' ' :: '\x7b' :: rest)) row' s' → False := by
    intro k cs butNot kind row row' s' hk h
    obtain ⟨n, hsize, -, -⟩ := reads_token h hgap
    rw [sign_size?_eq_none rfl hk] at hsize
    cases hsize
  -- each of the three rules needs another token than the brace
  obtain ⟨r, hr, hread⟩ := reads_of_oneOf (List.cons_ne_nil _ _) h
  simp only [List.mem_cons, List.not_mem_nil, or_false] at hr
  rcases hr with rfl | rfl | rfl
  · -- a clause, and where it comes from
    obtain ⟨row₁, s₁, hclause, hfrom⟩ := reads_row hread
    obtain ⟨inner, hclause, -⟩ := reads_node hclause htype.readGap_space
    have hs₁ : s₁ = ' ' :: '\x7b' :: rest := by
      obtain ⟨q, hq, hinner⟩ := reads_of_oneOf (List.cons_ne_nil _ _) hclause
      simp only [List.mem_cons, List.not_mem_nil, or_false] at hq
      rcases hq with rfl | rfl | rfl
      · obtain ⟨_, hwhole, -⟩ := reads_node hinner hgap
        obtain ⟨_, _, hstar, -⟩ := reads_row hwhole
        exact (hstart (by decide) hstar).elim
      · obtain ⟨_, hnamed, -⟩ := reads_node hinner hgap
        obtain ⟨_, _, hopen, -⟩ := reads_row hnamed
        exact (hstart (by decide) hopen).elim
      · obtain ⟨_, s₂, hany, hmore⟩ := reads_row hinner
        obtain rfl := hname hany
        cases hmore with
        | left hmore =>
            obtain ⟨_, _, hcomma, -⟩ := reads_row hmore
            exact (hsign (by decide) hcomma).elim
        | right hmore =>
            cases hmore
            rfl
    subst hs₁
    obtain ⟨_, _, hkeyword, -⟩ := reads_row hfrom
    obtain ⟨n, hsize, -, -⟩ := reads_token hkeyword hbrace.readGap_space
    cases hsize
  · -- a name, and `=`
    cases hread with
    | seq hgiven hrequire =>
        cases hgiven
        obtain ⟨_, hrequire, -⟩ := reads_node hrequire htype.readGap_space
        obtain ⟨_, s₁, hany, hmore⟩ := reads_row hrequire
        obtain rfl := hname hany
        obtain ⟨_, _, hequals, -⟩ := reads_row hmore
        exact hsign (by decide) hequals
  · -- a string
    obtain ⟨n, hsize, -, -⟩ := reads_token hread htype.readGap_space
    rw [string_size?_eq_none rfl (by decide)] at hsize
    cases hsize

/-- A node of another kind is no declaration. -/
theorem ofNode?_of_kind {n : Node} (h : n.kind ≠ "import_statement") :
    ImportDecl.ofNode? n = none := by
  have hparts : n.partsOf? "import_statement" = none := by
    cases n with
    | construct kind parts => exact if_neg fun hkind => h (eq_of_beq hkind)
    | _ => rfl
  unfold ImportDecl.ofNode?
  rw [hparts]

/-- An import that is marked as one of types is no declaration. -/
theorem ofNode?_of_type {parts : List Part} (h : .node (.token "type" "type") ∈ parts) :
    ImportDecl.ofNode? (.construct "import_statement" parts) = none := by
  have hany : ((Part.nodes parts).any fun n => n.isToken "type" || n.isToken "typeof"
      || n.kind == "import_require_clause") = true := by
    refine List.any_eq_true.2 ⟨.token "type" "type", ?_, rfl⟩
    exact List.mem_filterMap.2 ⟨_, h, rfl⟩
  unfold ImportDecl.ofNode?
  simp only [Node.partsOf?, beq_self_eq_true, if_true, hany]

/-- The rules behind the word `type` keep it in the row. -/
theorem keepsRow_importRest :
    importRest.keepsRow = true ∧ importAttributes.keepsRow = true
      ∧ (Rule.semicolon false : ModuleRule).keepsRow = true := by
  decide +kernel

/-- What is read as a declaration was read by the rule of import statements. -/
theorem ReadAt.reads_import {d : Dialect} {s : List Char} {n : Node} (h : ReadAt d s n)
    (hdecl : ImportDecl.ofNode? n ≠ none) :
    AtToken d s ∧ ∃ inner s', n = .construct "import_statement" inner.reverse
      ∧ Reads rule (Rule.row [Rule.keyword "import",
          .either (Rule.typed (Rule.row
            [.either (Rule.keyword "type") (Rule.keyword "typeof"), importRest])) importRest,
          importAttributes, Rule.semicolon false]) { dialect := d } [] s inner s' := by
  rcases h.reads_rule with ⟨kind, text, rfl⟩ | ⟨hat, r, hr, row, tail, s', hread⟩
  · exact absurd rfl hdecl
  rcases one_of_mem_statementRules hr with rfl | hone
  · obtain ⟨inner, hinner, rfl⟩ := build_of_reads_node hat hread
    exact ⟨hat, inner, s', rfl, hinner⟩
  · have hkind := kind_of_reads_one rfl hone hat hread
    exact absurd (ofNode?_of_kind (of_decide_eq_true hkind)) hdecl

/-- A declaration starts with the word `import`. -/
theorem ReadAt.head?_of_import {d : Dialect} {s : List Char} {n : Node} (h : ReadAt d s n)
    (hdecl : ImportDecl.ofNode? n ≠ none) : s.head? = some 'i' := by
  obtain ⟨hat, inner, s', -, hinner⟩ := h.reads_import hdecl
  obtain ⟨row₁, s₁, hkeyword, -⟩ := reads_row hinner
  obtain ⟨k, hsize, -, -⟩ := reads_token hkeyword (hat.noGap)
  simp only [Lexeme.size?] at hsize
  split at hsize
  · next hword =>
      obtain ⟨t, rfl⟩ := List.isPrefixOf_iff_prefix.1 hword
      rfl
  · cases hsize

/-- The mark of a type import stays among the parts. -/
theorem type_mem_of_reads {c : Context} {row row' : List Part} {more s' : List Char}
    (h : Reads rule (.either (Rule.keyword "type") (Rule.keyword "typeof")) c row
      (' ' :: ("type".toList ++ (' ' :: more))) row' s') :
    .node (.token "type" "type") ∈ row' := by
  have hword : IsWord "type".toList := by decide
  have hspace := (hword.atToken (d := .js) (' ' :: more)).readGap_space
  have hends := endsWord_space more
  cases h with
  | left hmark =>
      obtain ⟨-, rfl, -⟩ := reads_keyword hmark hspace hword hends
      exact List.mem_cons_self
  | right hmark =>
      obtain ⟨hne, -, -⟩ := reads_keyword hmark hspace hword hends
      exact absurd hne (by decide)

/-- **Where `import type {` stands, no declaration is read.** -/
theorem ReadAt.ofNode?_of_types {d : Dialect} {more : List Char} {n : Node}
    (h : ReadAt d ("import".toList ++ (' ' :: ("type".toList ++ (' ' :: '\x7b' :: more)))) n) :
    ImportDecl.ofNode? n = none := by
  refine Decidable.byContradiction fun hdecl => ?_
  obtain ⟨hat, inner, s', rfl, hinner⟩ := h.reads_import hdecl
  obtain ⟨row₁, s₁, hkeyword, hinner⟩ := reads_row hinner
  obtain ⟨row₂, s₂, hrest, hinner⟩ := reads_row hinner
  obtain ⟨row₃, s₃, hattributes, hend⟩ := reads_row hinner
  obtain ⟨-, -, rfl⟩ := reads_keyword hkeyword hat.noGap isWord_import
    (endsWord_space ("type".toList ++ (' ' :: '\x7b' :: more)))
  obtain ⟨hkeepRest, hkeepAttributes, hkeepEnd⟩ := keepsRow_importRest
  cases hrest with
  -- with the mark: it stays in the row, and so among the parts of the node
  | left htyped =>
      cases htyped with
      | seq hgiven htyped =>
          cases hgiven
          obtain ⟨row₄, s₄, hmark, hrest⟩ := reads_row htyped
          refine hdecl (ofNode?_of_type (List.mem_reverse.2 ?_))
          exact hend.keepsRow hkeepEnd _ (hattributes.keepsRow hkeepAttributes _
            (hrest.keepsRow hkeepRest _ (type_mem_of_reads hmark)))
  -- without the mark nothing can be read
  | right hrest => exact not_reads_importRest hrest

end Grammar

end ImportSplit
