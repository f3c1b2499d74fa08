/-
  ImportSplit.Proofs.ReadExpressions
  ────────────────────────────────
  **A NAME IN PARENTHESES IS READ AS SUCH.**

  An expression that is a name, or something in parentheses, is read through
  five rules, each of which tries others first and looks for more behind it:

      expressions → expression → operand → chain → base

  Which of these are refused is the same for every name and every depth of
  parentheses; it is looked up in the outlook of a few tokens (§2).  What is
  left is to put together what the five rules give (§3), and what the end of a
  statement takes (§4).
-/
import ImportSplit.Proofs.Outlook
import ImportSplit.Proofs.Fillings

namespace ImportSplit.Grammar

/-! ## §1. Signs and names. -/

/-- The signs around an object and behind it start no gap and no word. -/
theorem sign_spec : ∀ e ∈ ['(', ')', '.', ';'], (Text.isGap e = false ∧ e ∉ ['/', '<', '-'])
    ∧ isWordChar e = false ∧ e ≠ '\\' := by
  rw [List.forall_mem_cons, List.forall_mem_cons, List.forall_mem_cons, List.forall_mem_singleton]
  decide

theorem atToken_sign {e : Char} (he : e ∈ ['(', ')', '.', ';']) (rest : List Char) :
    AtToken .js (e :: rest) := by
  obtain ⟨⟨hgap, hsign⟩, -⟩ := sign_spec e he
  exact atToken_of_head? rfl hgap hsign

theorem pastGap_filling (g : Filling) {t : List Char} (ht : AtToken .js t) :
    pastGap (g.text ++ t) = t :=
  ((g.skips false t).readGap_eq ht.1 (ht.of_js .ts).2).1

theorem stand_sign {e : Char} {ms : List Mark} {rest : List Char} (he : e ∈ ['(', ')', '.', ';'])
    (hdigit : e = '.' → ∀ k ∈ rest.head?, isDigit k = false) (hrest : Stand ms (pastGap rest)) :
    Stand (.sign e :: ms) (e :: rest) :=
  ⟨(atToken_sign he rest).1, (atToken_sign he rest).2, [e], rest, rfl, ⟨rfl, hdigit⟩, hrest⟩

/-- The word is a name in an expression. -/
structure IsName (x : String) : Prop where
  word : IsWord x.toList
  free : x ∉ expressionWords

instance (x : String) : Decidable (IsName x) :=
  decidable_of_iff (IsWord x.toList ∧ x ∉ expressionWords)
    ⟨fun ⟨hword, hfree⟩ => ⟨hword, hfree⟩, fun h => ⟨h.word, h.free⟩⟩

theorem IsWord.stand {x : String} (h : IsWord x.toList) {besides : List String} (hfree : x ∉ besides)
    {ms : List Mark} {rest : List Char} (hends : EndsWord rest) (hrest : Stand ms (pastGap rest)) :
    Stand (.word besides :: ms) (x.toList ++ rest) := by
  have hat : AtToken .js (x.toList ++ rest) := h.atToken rest
  refine ⟨hat.1, hat.2, x.toList, rest, rfl, ⟨h, ?_, hends⟩, hrest⟩
  intro w hw heq
  exact hfree (String.toList_inj.1 heq ▸ hw)

/-- Behind a filling the sign stands, and no digit behind a point. -/
def Follows (e : Char) (s : List Char) : Prop :=
  ∃ (g : Filling) (rest : List Char), s = g.text ++ e :: rest
    ∧ (e = '.' → ∀ k ∈ rest.head?, isDigit k = false)

namespace Follows

variable {e : Char} {s : List Char}

theorem of_filling (he : e ≠ '.') (g : Filling) (rest : List Char) :
    Follows e (g.text ++ e :: rest) :=
  ⟨g, rest, rfl, fun h => absurd h he⟩

theorem stand (h : Follows e s) (he : e ∈ ['(', ')', '.', ';']) : Stand [.sign e] (pastGap s) := by
  obtain ⟨g, rest, rfl, hdigit⟩ := h
  rw [pastGap_filling g (atToken_sign he rest)]
  exact stand_sign he hdigit trivial

theorem endsWord (h : Follows e s) (he : e ∈ ['(', ')', '.', ';']) : EndsWord s := by
  obtain ⟨g, rest, rfl, -⟩ := h
  intro c hc
  by_cases hg : g = []
  · subst hg
    obtain rfl : e = c := Option.some.inj hc
    exact (sign_spec e he).2
  · obtain ⟨k, hk, hor⟩ := g.head?_text hg (e :: rest)
    obtain rfl : k = c := Option.some.inj (hk.symm.trans hc)
    rcases hor with hgap | rfl
    · refine ⟨Bool.eq_false_iff.2 fun hchar => ?_, fun hback => ?_⟩
      · rw [isGap_of_isWordChar hchar] at hgap
        cases hgap
      · subst hback
        cases hgap
    · decide

end Follows

/-! ## §2. Rules that are refused. -/

/-- The surroundings of a statement, or those inside its brackets. -/
def place (d : Dialect) (inside : Bool) : Context :=
  if inside then Context.bracketed { dialect := d } else { dialect := d }

/-- The rule can stop nowhere. -/
def Rule.isBarred (c : Context) (v : View) (r : ModuleRule) : Bool :=
  r.outlook? rule 100 c v == some []

theorem refuses_of_isBarred {c : Context} {v : View} {s : List Char} {rs : List ModuleRule}
    (h : rs.all (Rule.isBarred c v) = true) (hv : v.Shows s) :
    ∀ r ∈ rs, Refuses readDeep r c s := fun r hr =>
  refuses_of_outlook 100 (eq_of_beq (List.all_eq_true.1 h r hr)) hv

/-- How an object starts: it is a name and none of these words, a name in
parentheses, or one in more of them.  The sign `e` stands behind it. -/
def openings (besides : List String) (e : Char) : List (List Mark) :=
  [[.word besides, .sign e],
    [.sign '(', .word expressionWords, .sign ')', .sign e], [.sign '(', .sign '(']]

/-- What is tried before a chain, as an operand. -/
def beforeChain : List ModuleRule :=
  [unary,
    .node "update_expression" (.row [.either (.sign "++") (.sign "--"), .call .operand]),
    .node "await_expression" (.row [.keyword "await", .call .operand]), yielded]

/-- What is looked for behind a chain. -/
def behindChain : List ModuleRule :=
  [updateSuffix, .row [.stays true, assignmentSuffix], .row [.stays true, operatorSuffix],
    .row [.stays true, ternarySuffix], .row [.stays true, sequenceSuffix]]

/-- What is tried before a name, as the base of a chain. -/
def beforeName : List ModuleRule := [arrowFunction, newExpression, functionExpression]

theorem opening_barred (d : Dialect) (inside : Bool) : ∀ e ∈ [')', '.'],
    ∀ ms ∈ openings expressionWords e,
    (beforeChain ++ beforeName).all (Rule.isBarred (place d inside) ⟨true, ms⟩) = true := by
  rw [List.forall_mem_cons, List.forall_mem_singleton]
  cases d <;> cases inside <;> decide +kernel

/-- What is tried before parentheses, behind what is tried before a name. -/
def beforeParenthesis : List ModuleRule :=
  [identifier, constantWord, .token "number" .number, .token "string" .string, .call .template,
    .token "regex" .regex, .call .object, array]

theorem parenthesis_barred (d : Dialect) (inside : Bool) :
    beforeParenthesis.all (Rule.isBarred (place d inside) ⟨true, [.sign '(']⟩) = true := by
  cases d <;> cases inside <;> decide +kernel

theorem behind_barred (d : Dialect) (inside : Bool) : ∀ e ∈ [')', '.', ';'],
    behindChain.all (Rule.isBarred (place d inside) ⟨false, [.sign e]⟩) = true := by
  rw [List.forall_mem_cons, List.forall_mem_cons, List.forall_mem_singleton]
  cases d <;> cases inside <;> decide +kernel

/-- A chain does not go on before these signs, and no type is annotated. -/
theorem closing_barred (d : Dialect) (inside : Bool) : ∀ e ∈ [')', ';'],
    [chainSuffix, Rule.typed typeAnnotation].all
      (Rule.isBarred (place d inside) ⟨false, [.sign e]⟩) = true := by
  rw [List.forall_mem_cons, List.forall_mem_singleton]
  cases d <;> cases inside <;> decide +kernel

/-- The words that a statement of another kind starts with. -/
def openingWords (d : Dialect) : List String :=
  statementWords ++ if d.hasTypes then typeStatementWords else []

/-- A statement that starts like an object is one of expressions. -/
theorem statement_barred (d : Dialect) : ∀ ms ∈ openings (expressionWords ++ openingWords d) '.',
    (startsOtherwise :: statementRules.dropLast).all (Rule.isBarred (place d false) ⟨true, ms⟩)
      = true := by
  cases d <;> decide +kernel

/-- No statement starts with a point. -/
theorem point_barred (d : Dialect) :
    statementRules.all (Rule.isBarred (place d false) ⟨true, [.sign '.']⟩) = true := by
  cases d <;> decide +kernel

/-! ## §3. From the base of a chain to expressions. -/

section
variable {d : Dialect} {inside : Bool} {c : Context} {s t rest : List Char} {g : List Part}
  {n m : Node} {e : Char}

theorem gives_chain (hgap : readGap false t [] t = ([], t))
    (hbase : Gives readDeep chainBase c t [.node n] rest)
    (hstop : Refuses readDeep chainSuffix c rest) : Gives readDeep chain c t [.node n] rest :=
  (hbase.row hstop.givesMany.many.last).scope hgap

/-- A chain of a base and one suffix, which folds the base into its own node. -/
theorem gives_chain_suffix {u : List Char} (hgap : readGap false t [] t = ([], t))
    (hbase : Gives readDeep chainBase c t [.node n] u)
    (hsuffix : step readDeep chainSuffix c [.node n] u = .done [.node m] rest)
    (hlt : rest.length < u.length) (hstop : Refuses readDeep chainSuffix c rest) :
    Gives readDeep chain c t [.node m] rest := by
  have hmany := step_many_once hsuffix hlt hstop
  have hrow : step readDeep (Rule.row [chainBase, .many chainSuffix]) c [] t
      = .done [.node m] rest := by
    rw [step_row (hbase [])]
    exact hmany
  exact gives_scope hgap hrow

/-- **A chain is an expression**, where nothing stands before or behind it that
belongs to it. -/
theorem gives_expressions (hgap : readGap false s [] s = (g, t)) (ht : AtToken .js t)
    (hbefore : ∀ r ∈ beforeChain, Refuses readDeep r c t)
    (hchain : Gives readDeep chain c t [.node m] rest)
    (hbehind : ∀ r ∈ behindChain, Refuses readDeep r c rest) :
    Gives readDeep expressions c s (g.reverse ++ [.node m]) rest := by
  have hhere := ht.noGap
  have hbehind : Refuses readDeep updateSuffix c rest
      ∧ Refuses readDeep (.row [.stays true, assignmentSuffix]) c rest
      ∧ Refuses readDeep (.row [.stays true, operatorSuffix]) c rest
      ∧ Refuses readDeep (.row [.stays true, ternarySuffix]) c rest
      ∧ Refuses readDeep (.row [.stays true, sequenceSuffix]) c rest := by
    simpa [behindChain] using hbehind
  obtain ⟨hupdate, hassign, hoperator, hternary, hsequence⟩ := hbehind
  have hinner : Gives readDeep (.scope (.row [.call .chain, .opt updateSuffix,
      .opt (.row [.stays true, assignmentSuffix])])) c t [.node m] rest :=
    ((Gives.call .chain hchain).row (hupdate.opt.row hassign.opt.last)).scope hhere
  have hoperand : Gives readDeep operand c t [.node m] rest := Gives.oneOf hbefore hinner
  have hexpression : Gives readDeep expression c t [.node m] rest := by
    have hgapTrue : Gives readDeep (.gap true) c t [] t := by
      intro row
      rw [step, readGap_frame, ht.readGap fun _ => rfl]
      rfl
    have hscope := ((Gives.call .operand hoperand).row
      (hoperator.givesMany.many.row hternary.opt.last)).scope hhere
    exact hgapTrue.seq hscope
  exact ((Gives.call .expression hexpression).row hsequence.opt.last).scope hgap

/-- **A name is the base of a chain.** -/
theorem gives_name {x : String} (hx : IsName x) (hends : EndsWord rest)
    (hbefore : ∀ r ∈ beforeName, Refuses readDeep r c (x.toList ++ rest)) :
    Gives readDeep chainBase c (x.toList ++ rest) [.node (.identifier x)] rest := by
  obtain ⟨harrow, hnew, hfunction⟩ : Refuses readDeep arrowFunction c (x.toList ++ rest)
      ∧ Refuses readDeep newExpression c (x.toList ++ rest)
      ∧ Refuses readDeep functionExpression c (x.toList ++ rest) := by
    simpa [beforeName] using hbefore
  have hfree : (expressionWords.map String.toList).contains x.toList = false := by
    refine Bool.eq_false_iff.2 fun hmem => hx.free ?_
    obtain ⟨w, hw, heq⟩ := List.mem_map.1 (List.contains_iff_mem.1 hmem)
    rw [← String.toList_inj.1 heq]
    exact hw
  have hsize : (Lexeme.name (expressionWords.map String.toList)).size? (x.toList ++ rest)
      = some x.toList.length := by
    rw [name_size? _ hx.word hends, hfree]
    rfl
  have hname : Gives readDeep identifier c (x.toList ++ rest)
      ([].reverse ++ [.node (.leaf "identifier" (String.ofList x.toList))]) rest :=
    gives_token ((hx.word.atToken (d := .js) rest).noGap) hsize
  rw [String.ofList_toList] at hname
  have hplain : Gives readDeep plainBase c (x.toList ++ rest) [.node (.identifier x)] rest :=
    hfunction.right hname.left
  exact harrow.right (hnew.right hplain)

/-- One of the signs as a token. -/
theorem gives_mark {w : String} (hw : w.toList = [e]) (hgap : readGap false s [] s = (g, e :: rest)) :
    Gives readDeep (Rule.mark w) c s (g.reverse ++ [.node (.leaf w w)]) rest := by
  have hsize : (Lexeme.sign w.toList []).size? (w.toList ++ rest) = some w.toList.length := by
    simp [Lexeme.size?]
  have hgives : Gives readDeep (Rule.mark w) c s
      (g.reverse ++ [.node (.leaf w (String.ofList w.toList))]) rest :=
    gives_token (by rw [hgap, hw]; rfl) hsize
  rwa [String.ofList_toList] at hgives

/-- **Expressions in parentheses are the base of a chain.** -/
theorem gives_parenthesized {ps : List Part} {u v : List Char}
    (hbefore : ∀ r ∈ beforeName ++ beforeParenthesis, Refuses readDeep r c ('(' :: u))
    (hexpressions : Gives readDeep expressions c.bracketed u ps v)
    (hannotated : Refuses readDeep (Rule.typed typeAnnotation) c.bracketed v)
    (hgap : readGap false v [] v = (g, ')' :: rest)) :
    Gives readDeep chainBase c ('(' :: u)
      [.node (.construct "parenthesized_expression"
        (.node (.token "(" "(") :: (ps ++ (g.reverse ++ [.node (.token ")" ")")]))))] rest := by
  have hhere : readGap false ('(' :: u) [] ('(' :: u) = ([], '(' :: u) :=
    (atToken_sign (by decide) u).noGap
  have hopen : Gives readDeep (Rule.mark "(") c ('(' :: u) [.node (.token "(" "(")] u :=
    gives_mark rfl hhere
  have hclose : Gives readDeep (Rule.mark ")") c v (g.reverse ++ [.node (.token ")" ")")]) rest :=
    gives_mark rfl hgap
  have hinside : Gives readDeep (.within Context.bracketed (.row [.call .expressions, annotated])) c u
      ps v := by
    have hrow := (Gives.call .expressions hexpressions).row
      (hannotated.opt (r := .typed typeAnnotation)).last
    rw [List.append_nil] at hrow
    exact hrow.within
  have hparenthesized : Gives readDeep parenthesized c ('(' :: u)
      [.node (.construct "parenthesized_expression"
        (.node (.token "(" "(") :: (ps ++ (g.reverse ++ [.node (.token ")" ")")]))))] rest :=
    (hopen.row (hinside.row hclose.last)).node hhere
  obtain ⟨harrow, hnew, hbases⟩ : Refuses readDeep arrowFunction c ('(' :: u)
      ∧ Refuses readDeep newExpression c ('(' :: u)
      ∧ ∀ r ∈ functionExpression :: beforeParenthesis, Refuses readDeep r c ('(' :: u) := by
    simpa [beforeName] using hbefore
  have hplain : Gives readDeep plainBase c ('(' :: u) _ rest := Gives.oneOf hbases hparenthesized
  exact harrow.right (hnew.right hplain)

end

/-! ## §4. The end of a statement. -/

/-- A statement that ends of itself takes a part of what stands before the next token. -/
theorem gives_ends {c : Context} {operators : Bool} {s t : List Char} {ns : List Node} {k : Nat}
    (habsorbed : c.absorbed? operators s = some k) (hskips : Skips false s ns t)
    (ht : AtToken .js t) :
    ∃ ps rest ks, Gives readDeep (.ends operators) c s ps rest ∧ ns = Part.nodes ps ++ ks
      ∧ Skips false rest ks t := by
  obtain ⟨ks, hns, hks⟩ :=
    hskips.rest ht.1 (ht.of_js .ts).2 (skips_ends habsorbed)
  refine ⟨_, _, ks, fun row => ?_, hns, hks⟩
  rw [step, habsorbed]
  simp only
  rw [readGap_frame, List.reverse_reverse]

/-- **A statement ends at its semicolon**, or before it, and then only comments
are left before the semicolon. -/
theorem gives_semicolon (g : Filling) (d : Dialect) :
    ∃ ps rest, Gives readDeep (Rule.semicolon true) { dialect := d } (g.text ++ [';']) ps rest
      ∧ (∀ k ∈ Part.nodes ps, k = .token ";" ";" ∨ k ∈ g.comments)
      ∧ (rest = [] ∨ ∃ ks, (∀ k ∈ ks, k ∈ g.comments) ∧ Skips false rest ks [';']) := by
  have hat : AtToken .js [';'] := atToken_sign (by decide) []
  cases habsorbed : Context.absorbed? { dialect := d } true (g.text ++ [';']) with
  | none =>
      obtain ⟨row, hrow, hcomments, -⟩ := g.readGap hat
      have hends : Refuses readDeep (.ends true) { dialect := d } (g.text ++ [';']) := by
        intro row
        rw [step, habsorbed]
      have hsize : (Lexeme.sign ";".toList (Rule.continuations ";")).size? ([';'] ++ [])
          = some [';'].length := by decide
      have hsign : Gives readDeep (Rule.sign ";") { dialect := d } (g.text ++ [';'])
          (row.reverse ++ [.node (.leaf ";" (String.ofList [';']))]) [] := gives_token hrow hsize
      refine ⟨_, [], hends.right hsign, fun k hk => ?_, .inl rfl⟩
      rw [Part.nodes, List.filterMap_append] at hk
      rcases List.mem_append.1 hk with hk | hk
      · exact .inr (hcomments ▸ hk)
      · exact .inl (List.mem_singleton.1 hk)
  | some n =>
      obtain ⟨ps, rest, ks, hends, hcomments, hskips⟩ :=
        gives_ends habsorbed (g.skips false [';']) hat
      refine ⟨ps, rest, hends.left, fun k hk => .inr ?_, .inr ⟨ks, fun k hk => ?_, hskips⟩⟩
      · exact hcomments ▸ List.mem_append_left _ hk
      · exact hcomments ▸ List.mem_append_right _ hk

end ImportSplit.Grammar
