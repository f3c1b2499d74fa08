/-
  ImportSplit.Proofs.CookedNames
  ────────────────────────────────
  **NAMES THAT ARE WRITTEN AS STRINGS.**

  The source of a declaration is a string literal, and so may be the name of an
  export.  The tree keeps what stands between the quotes, which is not always
  the string that the literal denotes:

      declaration   import _ from "lod\u0061sh"
      source        lod\u0061sh
      denoted       lodash

  Every literal in a tree has its two quotes (`Reads.literals`), so what is kept
  is what is denoted exactly if no backslash is in the literal
  (`IsLiteral.keptAs`).  A path below a module is quoted again, and denotes the
  joined texts as they were kept (`value?_quote_eq_iff`).
-/
import ImportSplit.Proofs.LiteralValues
import ImportSplit.Proofs.Segments
import ImportSplit.Proofs.Points

namespace ImportSplit

/-! ## §1. The literals of a tree. -/

mutual
/-- The string literals inside a node, in order. -/
def Node.literals : Node → List String
  | .identifier _ => []
  | .member object _ _ => object.literals
  | .construct _ parts => Part.literalsOfList parts
  | .token kind text => if kind = "string" then [text] else []
/-- The string literals inside parts, in order. -/
def Part.literalsOfList : List Part → List String
  | [] => []
  | p :: rest => p.literals ++ Part.literalsOfList rest
/-- The string literals inside one part. -/
def Part.literals : Part → List String
  | .text _ => []
  | .node n => n.literals
end

theorem Part.mem_literalsOfList {ps : List Part} {t : String} :
    t ∈ Part.literalsOfList ps ↔ ∃ n ∈ Part.nodes ps, t ∈ n.literals := by
  induction ps with
  | nil => simp [literalsOfList, nodes]
  | cons p ps ih =>
      rw [literalsOfList, List.mem_append, ih]
      cases p with
      | text text => simp [literals, nodes, node?]
      | node n => simp [literals, nodes, node?]

/-- Rows are read the other way round. -/
theorem Part.mem_literalsOfList_reverse {ps : List Part} {t : String} :
    t ∈ Part.literalsOfList ps.reverse ↔ t ∈ Part.literalsOfList ps := by
  simp [mem_literalsOfList, nodes]

theorem Part.mem_literalsOfList_append {ps qs : List Part} {t : String} :
    t ∈ Part.literalsOfList (ps ++ qs)
      ↔ t ∈ Part.literalsOfList ps ∨ t ∈ Part.literalsOfList qs := by
  simp [mem_literalsOfList, nodes, or_and_right, exists_or]

mutual
theorem Node.literals_toPattern : ∀ n : Node, n.toPattern.literals = n.literals
  | .identifier _ => by simp [Node.toPattern]
  | .member .. => by simp [Node.toPattern]
  | .token .. => by simp [Node.toPattern]
  | .construct kind parts => by
      simp only [Node.toPattern]
      split
      · simp only [Node.literals]
        exact Part.literalsOfList_toPatterns parts
      · rfl
theorem Part.literalsOfList_toPatterns :
    ∀ ps : List Part, Part.literalsOfList (Part.toPatterns ps) = Part.literalsOfList ps
  | [] => by simp [Part.toPatterns]
  | p :: rest => by
      simp only [Part.toPatterns, Part.literalsOfList]
      rw [Part.literals_toPattern p, Part.literalsOfList_toPatterns rest]
theorem Part.literals_toPattern : ∀ p : Part, p.toPattern.literals = p.literals
  | .text _ => by simp [Part.toPattern]
  | .node (.identifier _) => by simp [Part.toPattern]
  | .node (.member ..) => by simp [Part.toPattern]
  | .node (.token kind text) => by
      -- no pattern is a string, and no string becomes a pattern
      have hkind : patternKind kind = "string" ↔ kind = "string" := by
        unfold patternKind
        split <;> simp
      simp [Part.toPattern, Part.literals, Node.literals, hkind]
  | .node (.construct kind parts) => by
      simp only [Part.toPattern]
      split
      · simp only [Part.literals, Node.literals]
        exact Part.literalsOfList_toPatterns parts
      · rfl
end

/-- The literals of an access are those of its object. -/
theorem Node.literals_of_access? {ps : List Part} {n : Node} (h : Node.access? ps = some n) :
    ∀ t ∈ n.literals, t ∈ Part.literalsOfList ps := by
  unfold Node.access? at h
  split at h
  · next object rest =>
      split at h
      · simp only at h
        split at h
        · cases h
        · cases h
          exact fun t ht => List.mem_append_left _ ht
      · cases h
  · cases h

/-- Building a node adds no literal. -/
theorem Node.literals_build (kind : String) (ps : List Part) :
    ∀ t ∈ (Node.build kind ps).literals, t ∈ Part.literalsOfList ps := by
  intro t ht
  unfold Node.build at ht
  split at ht
  · cases haccess : Node.access? ps with
    | none =>
        rw [haccess] at ht
        exact ht
    | some n =>
        rw [haccess] at ht
        exact Node.literals_of_access? haccess t ht
  · split at ht
    · unfold Part.asAssignment at ht
      split at ht
      · simp only [Node.literals, Part.literalsOfList, Part.literals,
          Node.literals_toPattern] at ht
        exact ht
      · exact ht
    · exact ht

/-! ## §2. Every literal has its quotes. -/

/-- The text stands between two quotes of one kind. -/
def IsLiteral (t : List Char) : Prop :=
  ∃ q inside, (q = '"' ∨ q = '\'') ∧ t = q :: inside ++ [q]

namespace Grammar

theorem escapeMove_ne_closed (st : StringState) (c : Char) :
    escapeMove .inside st c ≠ some .closed := by
  unfold escapeMove
  intro h
  cases st <;> simp only at h <;> (repeat' split at h) <;> cases h

theorem eq_of_stringMove_closed {q c : Char} (h : stringMove q c = some .closed) : c = q := by
  unfold stringMove at h
  by_cases hcq : (c == q) = true
  · exact eq_of_beq hcq
  · rw [if_neg hcq] at h
    repeat' split at h
    all_goals cases h

/-- Only the quote closes a literal. -/
theorem eq_of_move_closed {q c : Char} {st : StringState} (hst : st ≠ .closed)
    (h : (quoted q).move st c = some .closed) : c = q := by
  cases st with
  | start =>
      have h : (if c == q then some StringState.inside else none) = some .closed := h
      split at h <;> cases h
  | inside => exact eq_of_stringMove_closed h
  | carriage =>
      have h : (if Text.isLineEnd c then some StringState.inside else stringMove q c)
          = some .closed := h
      split at h
      · cases h
      · exact eq_of_stringMove_closed h
  | closed => exact absurd rfl hst
  | backslash => exact absurd h (escapeMove_ne_closed .backslash c)
  | unicode => exact absurd h (escapeMove_ne_closed .unicode c)
  | digits left => exact absurd h (escapeMove_ne_closed (.digits left) c)
  | brace => exact absurd h (escapeMove_ne_closed .brace c)
  | braced => exact absurd h (escapeMove_ne_closed .braced c)

/-- A run that closes a literal ends with the quote. -/
theorem exists_of_run_closed {q : Char} :
    ∀ (t : List Char) {st : StringState}, st ≠ .closed →
      (quoted q).run st t = some .closed → ∃ inside, t = inside ++ [q] := by
  intro t
  induction t with
  | nil =>
      intro st hst h
      exact absurd (Option.some.inj h) hst
  | cons c t ih =>
      intro st hst h
      unfold Scanner.run at h
      cases hmove : (quoted q).move st c with
      | none =>
          rw [hmove] at h
          cases h
      | some st' =>
          rw [hmove] at h
          by_cases hclosed : st' = .closed
          · subst hclosed
            obtain rfl := eq_of_move_closed hst hmove
            -- nothing follows the quote
            cases t with
            | nil => exact ⟨[], rfl⟩
            | cons d t => cases h
          · obtain ⟨inside, rfl⟩ := ih hclosed h
            exact ⟨c :: inside, rfl⟩

theorem isLiteral_of_quoted {q : Char} (hq : q = '"' ∨ q = '\'') {s : List Char} {n : Nat}
    (h : (quoted q).longest? s = some n) : IsLiteral (s.take n) := by
  have hhead := head?_of_quoted h
  obtain ⟨-, st, hrun, hacc⟩ := Scanner.run_of_longest? h
  obtain rfl : st = .closed := eq_of_beq hacc
  cases htake : s.take n with
  | nil =>
      rw [htake] at hhead
      cases hhead
  | cons c t =>
      rw [htake] at hhead hrun
      obtain rfl : c = q := Option.some.inj hhead
      have hstart : (quoted c).move .start c = some .inside := if_pos (beq_self_eq_true c)
      have hrun' : (quoted c).run .start (c :: t) = some .closed := hrun
      rw [Scanner.run_cons hstart] at hrun'
      obtain ⟨inside, rfl⟩ := exists_of_run_closed t (by decide) hrun'
      exact ⟨c, inside, hq, rfl⟩

/-- An attribute ends at the first quote like the one that it starts with. -/
theorem isLiteral_of_markupString? {s : List Char} {n : Nat} (h : markupString? s = some n) :
    IsLiteral (s.take n) := by
  unfold markupString? at h
  cases s with
  | nil => cases h
  | cons q rest =>
      simp only at h
      split at h
      · next hq =>
          split at h
          · next hlt =>
              cases h
              have hquote : q = '"' ∨ q = '\'' := by
                simpa only [Bool.or_eq_true, beq_iff_eq] using hq
              -- what is left behind the inside starts with the quote
              have hdrop : rest.dropWhile (· ≠ q) ≠ [] := by
                intro hnil
                have hwhole := List.takeWhile_append_dropWhile (p := (· ≠ q)) (l := rest)
                rw [hnil, List.append_nil] at hwhole
                rw [hwhole] at hlt
                exact Nat.lt_irrefl _ hlt
              obtain ⟨c, after, hafter⟩ := List.exists_cons_of_ne_nil hdrop
              obtain rfl : c = q := by
                have hhead := List.head?_dropWhile_not (· ≠ q) rest
                rw [hafter] at hhead
                simpa using hhead
              refine ⟨c, rest.takeWhile (· ≠ c), hquote, ?_⟩
              have hrest : rest = rest.takeWhile (· ≠ c) ++ c :: after := by
                rw [← hafter, List.takeWhile_append_dropWhile]
              have htake : rest.take ((rest.takeWhile (· ≠ c)).length + 1)
                  = rest.takeWhile (· ≠ c) ++ [c] :=
                calc rest.take ((rest.takeWhile (· ≠ c)).length + 1)
                    = (rest.takeWhile (· ≠ c) ++ c :: after).take
                        ((rest.takeWhile (· ≠ c)).length + 1) := congrArg _ hrest
                  _ = rest.takeWhile (· ≠ c) ++ [c] := by rw [List.take_length_add_append]; rfl
              exact congrArg (c :: ·) htake
          · cases h
      · cases h

/-- A token of this kind is a literal. -/
theorem isLiteral_of_leafChecks {lexeme : Lexeme} {s : List Char} {n : Nat}
    (hchecks : leafChecks "string" lexeme = true) (hsize : lexeme.size? s = some n) :
    IsLiteral (s.take n) := by
  cases lexeme with
  | string =>
      unfold Lexeme.size? at hsize
      cases hdouble : (quoted '"').longest? s with
      | some m =>
          rw [hdouble] at hsize
          cases hsize
          exact isLiteral_of_quoted (.inl rfl) hdouble
      | none =>
          rw [hdouble] at hsize
          exact isLiteral_of_quoted (.inr rfl) hsize
  | markupString =>
      have hsize : markupString? s = some n := hsize
      exact isLiteral_of_markupString? hsize
  | _ => cases hchecks

variable {ν : Type} {rules : ν → Rule ν} {r : Rule ν} {c : Context} {row row' : List Part}
  {s s' : List Char}

/-- A gap holds no literal. -/
theorem literals_of_isGap {ps : List Part} (hps : ∀ p ∈ ps, p.IsGap) :
    Part.literalsOfList ps = [] := by
  refine List.eq_nil_iff_forall_not_mem.2 fun t ht => ?_
  obtain ⟨n, hn, ht⟩ := Part.mem_literalsOfList.1 ht
  obtain ⟨p, hp, hpn⟩ := List.mem_filterMap.1 hn
  have hgap := hps p hp
  cases p with
  | text text => cases hpn
  | node m =>
      cases hpn
      cases n with
      | token kind text =>
          rcases hgap.1 with rfl | rfl <;> cases ht
      | _ => cases hgap

/-- **A grammar all of whose rules pass their checks reads literals with their
quotes.** -/
theorem Reads.literals (hrules : ∀ name, (rules name).checks false = true)
    (h : Reads rules r c row s row' s') :
    ∀ fresh, r.checks fresh = true → (∀ t ∈ Part.literalsOfList row, IsLiteral t.toList) →
      ∀ t ∈ Part.literalsOfList row', IsLiteral t.toList := by
  induction h with
  | nothing | stays | stop | ahead | notAhead | holds | given => exact fun _ _ hrow => hrow
  | @leaf c row s kind lexeme n hsize =>
      intro _ hr hrow t ht
      rcases List.mem_append.1 ht with ht | ht
      · have ht : t ∈ (Node.leaf kind (String.ofList (s.take n))).literals := ht
        by_cases hkind : kind = "string"
        · subst hkind
          have ht : t ∈ [String.ofList (s.take n)] := ht
          rw [List.mem_singleton.1 ht, String.toList_ofList]
          exact isLiteral_of_leafChecks hr hsize
        · unfold Node.leaf at ht
          split at ht
          · cases ht
          · rw [Node.literals, if_neg hkind] at ht
            cases ht
      · exact hrow t ht
  | gap =>
      intro _ _ hrow t ht
      rw [Part.mem_literalsOfList_append, literals_of_isGap isGap_of_readGap] at ht
      exact hrow t (ht.resolve_left List.not_mem_nil)
  | ends =>
      intro _ _ hrow t ht
      rw [Part.mem_literalsOfList_append, literals_of_isGap isGap_of_readGap] at ht
      exact hrow t (ht.resolve_left List.not_mem_nil)
  | seq _ _ ih₁ ih₂ =>
      intro _ hr hrow
      obtain ⟨hfirst, hsecond⟩ := Bool.and_eq_true _ _ ▸ hr
      exact ih₂ false hsecond (ih₁ false hfirst hrow)
  | again _ _ ih₁ ih₂ => exact fun fresh hr hrow => ih₂ false hr (ih₁ false hr hrow)
  | left _ ih => exact fun _ hr hrow => ih false (Bool.and_eq_true _ _ ▸ hr).1 hrow
  | right _ ih => exact fun _ hr hrow => ih false (Bool.and_eq_true _ _ ▸ hr).2 hrow
  | scope _ ih =>
      intro _ hr hrow t ht
      rw [Part.mem_literalsOfList_append, Part.mem_literalsOfList_append,
        literals_of_isGap isGap_of_readGap] at ht
      rcases ht with ht | ht
      · exact ih true hr (fun _ h => absurd h List.not_mem_nil) t ht
      · exact hrow t (ht.resolve_left List.not_mem_nil)
  | @wrap r c row s kind row' s' _ ih =>
      intro _ hr hrow t ht
      simp only [Rule.checks, Bool.and_eq_true] at hr
      have hmem : t ∈ (Node.build kind row'.reverse).literals := by
        simpa [Part.literalsOfList, Part.literals] using ht
      have hinner := Node.literals_build kind row'.reverse t hmem
      exact ih false hr.2 hrow t (Part.mem_literalsOfList_reverse.1 hinner)
  | call _ ih => exact fun _ _ hrow => ih false (hrules _) hrow
  | within _ ih => exact fun _ hr hrow => ih false hr hrow

/-- The literals of a module have their quotes. -/
theorem Pieces.literals {d : Dialect} {s : List Char} {ns : List Node} (h : Pieces d true s ns) :
    ∀ n ∈ ns, ∀ t ∈ n.literals, IsLiteral t.toList := by
  obtain ⟨row, hread, rfl⟩ := readModule_of_pieces h
  intro n hn t ht
  have hreads := reads_of_step (fun name => reads_of_read rule (depthFor s) name) _ _ _ _ _ _ hread
  refine hreads.literals rule_checks false wholeModule_checks
    (fun _ h => absurd h List.not_mem_nil) t ?_
  exact Part.mem_literalsOfList_reverse.1 (Part.mem_literalsOfList.2 ⟨n, hn, ht⟩)

end Grammar

/-! ## §3. What is kept of a literal. -/

/-- How a name that is kept of a literal relates to what the literal denotes. -/
structure Literal.KeptAs (literal kept : String) : Prop where
  /-- What is kept denotes the same, once its escapes are read. -/
  value : Literal.value? literal = Literal.decode kept.toList
  /-- What is kept is denoted itself exactly if the literal has no backslash. -/
  denoted_iff : Literal.value? literal = some (Literal.textUnits kept.toList)
    ↔ '\\' ∉ literal.toList

/-- **What stands between its quotes is kept of a literal.** -/
theorem IsLiteral.keptAs {literal : String} (h : IsLiteral literal.toList) :
    Literal.KeptAs literal (quotedText literal) := by
  obtain ⟨q, inside, hq, hliteral⟩ := h
  obtain rfl : literal = String.ofList (q :: inside ++ [q]) := by
    rw [← hliteral, String.ofList_toList]
  have hkept : quotedText (String.ofList (q :: inside ++ [q])) = String.ofList inside := by
    unfold quotedText
    rw [String.toList_ofList]
    rcases hq with rfl | rfl <;> simp [quotedText.isQuote]
  have hback : '\\' ∉ q :: inside ++ [q] ↔ '\\' ∉ inside := by
    rcases hq with rfl | rfl <;> simp
  constructor
  · rw [hkept, String.toList_ofList, Literal.value?_of_quoted hq]
  · rw [hkept, String.toList_ofList, String.toList_ofList, Literal.value?_of_quoted hq, hback]
    exact Literal.decode_eq_iff inside

/-! ## §4. The names of a declaration. -/

/-- The literal that names the source of a declaration. -/
def Node.sourceLiteral? (n : Node) : Option String :=
  (n.partsOf? "import_statement").bind fun parts =>
    ((Part.nodes parts).find? fun n => n.kind == "string").map Node.spelling

/-- The parts of each specifier in braces, for one node of an import clause. -/
def Node.clauseEntries (m : Node) : List (List Part) :=
  match m.partsOf? "named_imports" with
  | some named => (Part.nodes named).filterMap (Node.partsOf? "import_specifier")
  | none => []

/-- The parts of each specifier between the braces of a declaration. -/
def Node.braceEntries (n : Node) : List (List Part) :=
  match n.partsOf? "import_statement" with
  | none => []
  | some parts =>
      ((Part.nodes parts).filterMap (Node.partsOf? "import_clause")).flatMap fun clause =>
        (Part.nodes clause).flatMap Node.clauseEntries

/-- The exported name of a specifier, where it is written as a string. -/
def Part.literalName? (entry : List Part) : Option String :=
  match (Part.nodes entry).find? fun n => n.exportName?.isSome with
  | some (.token _ literal) => some literal
  | _ => none

/-- The first name of a specifier is the exported one. -/
theorem Specifier.exported?_ofParts (ps : List Part) :
    (ofParts ps).exported? = (Part.exportNames ps).head?.map Prod.fst := by
  cases hnames : Part.exportNames ps with
  | nil =>
      have hnone : (Part.nodes ps).filterMap Node.exportName? = [] := hnames
      unfold ofParts
      simp only [hnone]
      split <;> rfl
  | cons x rest =>
      cases rest with
      | nil =>
          have hone : (Part.nodes ps).filterMap Node.exportName? = [x] := hnames
          unfold ofParts
          simp only [hone]
          split <;> rfl
      | cons y rest =>
          have htwo : (Part.nodes ps).filterMap Node.exportName? = x :: y :: rest := hnames
          unfold ofParts
          simp only [htwo]
          split <;> rfl

theorem Specifier.exported?_of_literalName? {entry : List Part} {literal : String}
    (h : Part.literalName? entry = some literal) :
    (ofParts entry).exported? = some (quotedText literal)
      ∧ .token "string" literal ∈ Part.nodes entry := by
  unfold Part.literalName? at h
  split at h
  · next kind text hfind =>
      cases h
      have hsome : (Node.token kind literal).exportName?.isSome = true := by
        simpa using List.find?_some hfind
      obtain ⟨x, hx⟩ := Option.isSome_iff_exists.1 hsome
      -- a token is a name only as a string
      have hkind : kind = "string" ∧ x = (quotedText literal, true) := by
        unfold Node.exportName? at hx
        split at hx
        · next heq => cases heq
        · next heq =>
            cases heq
            exact ⟨rfl, (Option.some.inj hx).symm⟩
        · cases hx
      obtain ⟨rfl, rfl⟩ := hkind
      refine ⟨?_, List.mem_of_find?_eq_some hfind⟩
      rw [exported?_ofParts, Part.exportNames, List.head?_filterMap]
      obtain ⟨above, below, hsplit, hnone⟩ := List.find?_eq_some_iff_append.1 hfind |>.2
      have habove : above.findSome? Node.exportName? = none := by
        refine List.findSome?_eq_none_iff.2 fun m hm => ?_
        simpa using hnone m hm
      rw [hsplit, List.findSome?_append, habove, Option.none_or, List.findSome?_cons, hx]
      rfl
  · cases h

section
variable {n : Node} {decl : ImportDecl}

theorem ImportDecl.source_keptAs (hn : n.WellRead)
    (hliterals : ∀ t ∈ n.literals, IsLiteral t.toList) (h : ImportDecl.ofNode? n = some decl) :
    ∃ literal, n.sourceLiteral? = some literal ∧ Literal.KeptAs literal decl.source := by
  obtain ⟨parts, source, rfl, hfind, -, hsource, -⟩ := ImportDecl.of_ofNode? h
  have hmem := List.mem_of_find?_eq_some hfind
  have hkind : source.kind = "string" := by simpa using List.find?_some hfind
  refine ⟨source.spelling, ?_, ?_⟩
  · have hparts : (Node.construct "import_statement" parts).partsOf? "import_statement"
        = some parts := rfl
    unfold Node.sourceLiteral?
    rw [hparts, Option.bind_some, hfind]
    rfl
  · rw [hsource]
    refine (hliterals _ ?_).keptAs
    refine Part.mem_literalsOfList.2 ⟨source, hmem, ?_⟩
    -- only a token is of this kind
    cases source with
    | identifier name => exact absurd hkind (by simp [Node.kind])
    | member object operator property => exact absurd hkind (by simp [Node.kind])
    | token kind text =>
        obtain rfl : kind = "string" := hkind
        exact List.mem_singleton_self text
    | construct kind ps =>
        obtain rfl : kind = "string" := hkind
        have hwell : (Node.construct "string" ps).WellRead := hn.2.2.node hmem
        exact absurd hwell.1 (by decide)

/-- Every specifier that asks by name stands between braces. -/
theorem ImportDecl.map_ofParts_braceEntries (h : ImportDecl.ofNode? n = some decl) :
    n.braceEntries.map Specifier.ofParts
      = decl.specifiers.filter fun x => x.isNamed || x.isTypeOnly := by
  obtain ⟨parts, source, rfl, -, hspecifiers, -, -⟩ := ImportDecl.of_ofNode? h
  have hparts : ∀ ps : List Part, (Specifier.ofParts ps).isNamed || (Specifier.ofParts ps).isTypeOnly := by
    intro ps
    unfold Specifier.ofParts
    simp only []
    split <;> rfl
  have hclause : ∀ m : Node, m.clauseEntries.map Specifier.ofParts
      = (Specifier.ofClauseNode m).filter fun x => x.isNamed || x.isTypeOnly := by
    intro m
    unfold Specifier.ofClauseNode
    split
    · rfl
    · rfl
    · rw [List.filter_eq_self.2]
      · rfl
      · intro x hx
        obtain ⟨ps, -, rfl⟩ := List.mem_map.1 hx
        exact hparts ps
    · next hidentifier hwhole hnamed =>
        cases m with
        | construct kind ps =>
            have hkind : kind ≠ "named_imports" := fun heq => hnamed ps (by rw [heq])
            simp [Node.clauseEntries, Node.partsOf?, hkind]
        | _ => rfl
  have hstatement : (Node.construct "import_statement" parts).braceEntries
      = ((Part.nodes parts).filterMap (Node.partsOf? "import_clause")).flatMap fun clause =>
        (Part.nodes clause).flatMap Node.clauseEntries := rfl
  rw [hstatement, hspecifiers, List.map_flatMap, List.filter_flatMap]
  refine congrArg List.flatten (List.map_congr_left fun clause _ => ?_)
  rw [List.map_flatMap, List.filter_flatMap]
  exact congrArg List.flatten (List.map_congr_left fun m _ => hclause m)

theorem Node.exported_keptAs (hliterals : ∀ t ∈ n.literals, IsLiteral t.toList)
    {entry : List Part} (hentry : entry ∈ n.braceEntries) {literal : String}
    (hliteral : Part.literalName? entry = some literal) :
    ∃ name, (Specifier.ofParts entry).exported? = some name ∧ Literal.KeptAs literal name := by
  obtain ⟨hexported, htoken⟩ := Specifier.exported?_of_literalName? hliteral
  refine ⟨_, hexported, (hliterals literal ?_).keptAs⟩
  -- from the specifier up to the statement
  unfold Node.braceEntries at hentry
  split at hentry
  · cases hentry
  · next parts hparts =>
      obtain rfl := Node.of_partsOf? hparts
      obtain ⟨clause, hclause, hentry⟩ := List.mem_flatMap.1 hentry
      obtain ⟨c, hc, hcparts⟩ := List.mem_filterMap.1 hclause
      obtain rfl := Node.of_partsOf? hcparts
      obtain ⟨m, hm, hentry⟩ := List.mem_flatMap.1 hentry
      unfold Node.clauseEntries at hentry
      split at hentry
      · next named hnamed =>
          obtain rfl := Node.of_partsOf? hnamed
          obtain ⟨e, he, heparts⟩ := List.mem_filterMap.1 hentry
          obtain rfl := Node.of_partsOf? heparts
          refine Part.mem_literalsOfList.2 ⟨_, hc, Part.mem_literalsOfList.2 ⟨_, hm,
            Part.mem_literalsOfList.2 ⟨_, he, Part.mem_literalsOfList.2 ⟨_, htoken, ?_⟩⟩⟩⟩
          exact List.mem_singleton_self literal
      · cases hentry

end

/-! ## §5. Paths that are made. -/

namespace Program

/-- The direct import is made of this member of this declaration: a specifier
asks for it, or an access on a handle of the module does. -/
structure MadeOf (w : WatchList) (p : Program) (made : DirectImport) (decl : ImportDecl)
    (member : String) : Prop where
  declared : decl ∈ p.imports
  watched : w.watches decl.source = true
  path : made.path = memberPath decl.source member
  asked : (∃ x ∈ decl.specifiers, x.exported? = some member ∧ x.bound? = some made.name)
    ∨ ∃ handle ∈ decl.handles, ∃ a ∈ p.accesses,
      a.objectName? = some handle.name ∧ a.property = member

theorem exists_madeOf {w : WatchList} {p : Program} {made : DirectImport}
    (h : made ∈ p.queued w) : ∃ decl member, p.MadeOf w made decl member := by
  rw [p.queued_eq w, directImports, mem_inScope_iff] at h
  obtain ⟨before, s, rest, hbody, hmade⟩ := h
  have hs : s ∈ p.body := by
    rw [hbody]
    exact List.mem_append_right _ List.mem_cons_self
  cases s with
  | importing decl =>
      have hmade : made ∈ if w.watches decl.source then decl.members else [] := hmade
      by_cases hw : w.watches decl.source = true
      · rw [if_pos hw] at hmade
        obtain ⟨x, hx, hmember⟩ := List.mem_filterMap.1 hmade
        obtain ⟨member, hexported, hbound, hpath⟩ := Specifier.of_member? hmember
        exact ⟨decl, member, List.mem_filterMap.2 ⟨_, hs, rfl⟩, hw, hpath,
          .inl ⟨x, hx, hexported, hbound⟩⟩
      · rw [if_neg hw] at hmade
        cases hmade
  | other n =>
      obtain ⟨a, ha, hdirect⟩ := List.mem_filterMap.1 hmade
      obtain ⟨module, hmodule, rfl⟩ := Option.map_eq_some_iff.1 hdirect
      obtain ⟨x, hx, hscope⟩ := Option.bind_eq_some_iff.1 hmodule
      obtain ⟨decl, hdecl, hw, rfl, handle, hhandle, rfl⟩ := exists_handle_of_scopeAt hscope
      have hdecl : .importing decl ∈ p.body := by
        rw [hbody]
        exact List.mem_append_left _ hdecl
      exact ⟨decl, a.property, List.mem_filterMap.2 ⟨_, hdecl, rfl⟩, hw, rfl,
        .inr ⟨handle, hhandle, a, List.mem_flatMap.2 ⟨_, hs, ha⟩, hx, rfl⟩⟩

/-- The path of a direct import denotes what was kept of module and member, and
so what these denote exactly if neither was kept with a backslash. -/
theorem MadeOf.value?_quote_eq_iff {w : WatchList} {p : Program} {made : DirectImport}
    {decl : ImportDecl} {member : String} (h : p.MadeOf w made decl member) :
    Literal.value? (Text.quote made.path) = Literal.joined? decl.source member
      ↔ '\\' ∉ decl.source.toList ∧ '\\' ∉ member.toList := by
  rw [Literal.value?_quote, h.path, eq_comm]
  exact Literal.joined?_eq_iff decl.source member

/-- What becomes of the names of a module that are written as strings, where the
module falls into these pieces. -/
structure NamesKept (p : Program) (ns : List Node) : Prop where
  body : p.body = ns.map Statement.ofNode
  /-- The source of a declaration is kept of its literal. -/
  source : ∀ n ∈ ns, ∀ decl, ImportDecl.ofNode? n = some decl →
    ∃ literal, n.sourceLiteral? = some literal ∧ Literal.KeptAs literal decl.source
  /-- Every specifier that asks by name stands between braces. -/
  entries : ∀ n ∈ ns, ∀ decl, ImportDecl.ofNode? n = some decl →
    n.braceEntries.map Specifier.ofParts
      = decl.specifiers.filter fun x => x.isNamed || x.isTypeOnly
  /-- An exported name that is written as a string is kept of its literal. -/
  exported : ∀ n ∈ ns, ∀ entry ∈ n.braceEntries, ∀ literal,
    Part.literalName? entry = some literal →
      ∃ name, (Specifier.ofParts entry).exported? = some name ∧ Literal.KeptAs literal name
  /-- The path that a direct import is printed with denotes what was kept of
  module and member, and what these denote exactly if they have no backslash. -/
  paths : ∀ w, ∀ made ∈ p.queued w, ∃ decl member, p.MadeOf w made decl member
    ∧ made.statement.spelling = "import " ++ made.name ++ " from " ++ Text.quote made.path ++ ";"
    ∧ Literal.value? (Text.quote made.path) = some (Literal.textUnits made.path.toList)
    ∧ (Literal.value? (Text.quote made.path) = Literal.joined? decl.source member
      ↔ '\\' ∉ decl.source.toList ∧ '\\' ∉ member.toList)

/-- **Names are what their literals denote exactly where no backslash is**, in
every module that is read. -/
theorem namesKept_of_ofSource {d : Dialect} {source : String} {p : Program}
    (h : Program.ofSource d source = .ok p) :
    ∃ ns, Grammar.Pieces d true source.toList ns ∧ p.NamesKept ns := by
  rw [ofSource_eq_ok_iff, ofSource?_eq_some_iff] at h
  obtain ⟨ns, hpieces, -, rfl⟩ := h
  exact ⟨ns, hpieces, {
    body := rfl
    source := fun n hn _ hdecl =>
      ImportDecl.source_keptAs (hpieces.wellRead n hn) (hpieces.literals n hn) hdecl
    entries := fun _ _ _ hdecl => ImportDecl.map_ofParts_braceEntries hdecl
    exported := fun n hn _ hentry _ hliteral =>
      Node.exported_keptAs (hpieces.literals n hn) hentry hliteral
    paths := by
      intro w made hmade
      obtain ⟨decl, member, hmade⟩ := exists_madeOf hmade
      exact ⟨decl, member, hmade, DirectImport.spelling_statement made,
        Literal.value?_quote made.path, hmade.value?_quote_eq_iff⟩ }⟩

theorem namesKept_of_ofSource_string :
    Program.ofSource .js "import \x7b\"map\" as m\x7d from 'lod\\u0061sh';"
        = .ok ⟨[.importing
          { specifiers := [.named (some "map") (some "m")]
            source := "lod\\u0061sh"
            raw := some "import \x7b\"map\" as m\x7d from 'lod\\u0061sh';" }]⟩
      ∧ ∃ ns, Grammar.Pieces .js true "import \x7b\"map\" as m\x7d from 'lod\\u0061sh';".toList ns
        ∧ NamesKept ⟨[.importing
          { specifiers := [.named (some "map") (some "m")]
            source := "lod\\u0061sh"
            raw := some "import \x7b\"map\" as m\x7d from 'lod\\u0061sh';" }]⟩ ns := by
  have hread : Program.ofSource .js "import \x7b\"map\" as m\x7d from 'lod\\u0061sh';"
      = .ok ⟨[.importing
        { specifiers := [.named (some "map") (some "m")]
          source := "lod\\u0061sh"
          raw := some "import \x7b\"map\" as m\x7d from 'lod\\u0061sh';" }]⟩ :=
    Program.ofSource_eq_ok_iff.2 (by decide +kernel)
  exact ⟨hread, namesKept_of_ofSource hread⟩

/-- The source is not what the literal denotes, for one in a declaration
such as `import _ from "lod\u0061sh";`. -/
theorem not_source_denoted :
    ¬ ∀ (d : Dialect) (source : String) (p : Program), Program.ofSource d source = .ok p →
      ∀ ns, Grammar.Pieces d true source.toList ns →
        ∀ n ∈ ns, ∀ decl, ImportDecl.ofNode? n = some decl →
          ∀ literal, n.sourceLiteral? = some literal →
            Literal.value? literal = some (Literal.textUnits decl.source.toList) := by
  intro h
  have hread : Program.ofSource .js "import _ from \"lod\\u0061sh\";"
      = .ok ⟨[.importing
        { specifiers := [.byDefault (some "_")]
          source := "lod\\u0061sh"
          raw := some "import _ from \"lod\\u0061sh\";" }]⟩ :=
    Program.ofSource_eq_ok_iff.2 (by decide +kernel)
  obtain ⟨ns, hpieces, -, hbody⟩ :=
    Program.ofSource?_eq_some_iff.1 (Program.ofSource_eq_ok_iff.1 hread)
  -- the module is this one declaration
  obtain ⟨n, rfl, hn⟩ := List.map_eq_singleton_iff.1 (Program.mk.inj hbody).symm
  cases hdecl : ImportDecl.ofNode? n with
  | none =>
      rw [Statement.ofNode_of_none hdecl] at hn
      cases hn
  | some decl =>
      rw [Statement.ofNode_of_some hdecl] at hn
      cases hn
      obtain ⟨literal, hliteral, hkept⟩ := ImportDecl.source_keptAs
        (hpieces.wellRead n List.mem_cons_self) (hpieces.literals n List.mem_cons_self) hdecl
      have hdenoted := h _ _ _ hread _ hpieces n List.mem_cons_self _ hdecl _ hliteral
      rw [hkept.value] at hdenoted
      exact absurd hdenoted (by decide +kernel)

end Program

end ImportSplit
