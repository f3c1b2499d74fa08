/-
  ImportSplit.Proofs.NodeRules
  ────────────────────────────────
  **RULES THAT READ ONE NODE.**

  A statement is read as one node, and perhaps a gap behind it.  That is shown
  of every rule that passes a check of its form (`Rule.one`), by induction on
  derivations; the check also looks at the kind of the node, so that a node of
  one kind is known to come from one rule.

      text  =  node  gap  rest

  The gap is what would be skipped there anyway, so the node alone tells where
  the text goes on.
-/
import ImportSplit.Proofs.Gaps
import ImportSplit.Source

namespace ImportSplit.Grammar

/-! ## §1. Forms of rules. -/

namespace Rule

variable {ν : Type}

/-- The rule takes nothing where no gap starts. -/
def silent : Rule ν → Bool
  | nothing | gap _ | stays _ | ahead _ | notAhead _ | holds _ | given _ => true
  | _ => false

/-- The rule takes blanks and comments alone. -/
def gapOnly : Rule ν → Bool
  | nothing | gap _ | ends _ | stays _ => true
  | seq first second | either first second => gapOnly first && gapOnly second
  | _ => false

/-- The token takes a character at least. -/
def solidLexeme : Lexeme → Bool
  | .keyword w => !w.isEmpty
  | .sign cs _ => !cs.isEmpty
  | .name _ | .privateName | .number | .string | .regex | .hashbang => true
  | _ => false

/-- The rule takes a character at least, if the named rules do. -/
def solid : Rule ν → Bool
  | leaf _ lexeme => solidLexeme lexeme
  | scope r | wrap _ r | within _ r => solid r
  | seq first second => solid first || solid second
  | either first second => solid first && solid second
  | call _ => true
  | _ => false

/-- Where no gap starts the rule reads one node with a text, whose kind is
`good`, and perhaps a gap behind it; the calls in `calls` do so too. -/
def one (calls : ν → Bool) (good : String → Bool) : Rule ν → Bool
  | leaf kind lexeme => good kind && solidLexeme lexeme
  | scope (wrap kind r) => good kind && solid r
  | seq first second =>
      (silent first && one calls good second) || (one calls good first && gapOnly second)
  | either first second => one calls good first && one calls good second
  | call name => calls name
  | _ => false

end Rule

variable {ν : Type} {rules : ν → Rule ν} {r : Rule ν} {c : Context} {row row' : List Part}
  {s s' : List Char}

@[simp] theorem kind_leaf (kind text : String) : (Node.leaf kind text).kind = kind := by
  unfold Node.leaf
  by_cases hkind : kind = "identifier"
  · rw [if_pos hkind, hkind]
    rfl
  · rw [if_neg hkind]
    rfl

@[simp] theorem kind_build (kind : String) (ps : List Part) : (Node.build kind ps).kind = kind := by
  unfold Node.build
  by_cases hmember : kind = "member_expression"
  · rw [if_pos hmember, hmember]
    unfold Node.access?
    split
    · split
      · simp only
        split <;> rfl
      · rfl
    · rfl
  · rw [if_neg hmember]
    split <;> rfl

/-- What is built is no token. -/
theorem isToken_build (kind : String) (ps : List Part) (text : String) :
    (Node.build kind ps).isToken text = false := by
  unfold Node.build
  split
  · unfold Node.access?
    split
    · split
      · simp only
        split <;> rfl
      · rfl
    · rfl
  · split <;> rfl

theorem Reads.silent (h : Reads rules r c row s row' s') (hr : r.silent = true)
    (hs : AtToken c.dialect s) : row' = row ∧ s' = s := by
  cases h with
  | nothing | stays | ahead | notAhead | holds | given => exact ⟨rfl, rfl⟩
  | gap withMarkup =>
      rw [hs.readGap]
      · exact ⟨rfl, rfl⟩
      · intro hm
        have hnot := (Bool.and_eq_true _ _ ▸ hm).2
        cases htypes : c.dialect.hasTypes with
        | false => rfl
        | true =>
            rw [htypes] at hnot
            cases hnot
  | _ => cases hr

/-- A rule that takes blanks and comments alone takes what is skipped there. -/
theorem Reads.gapOnly (h : Reads rules r c row s row' s') (hr : r.gapOnly = true) :
    ∃ tail, row' = tail ++ row ∧ (∀ p ∈ tail, p.IsGap)
      ∧ Skips (!c.dialect.hasTypes) s (Part.nodes tail.reverse) s' := by
  induction h with
  | nothing | stays => exact ⟨[], rfl, fun _ h => absurd h List.not_mem_nil, .refl⟩
  | gap =>
      refine ⟨_, rfl, isGap_of_readGap, (skips_readGap _ _ _).mono fun hm => ?_⟩
      exact (Bool.and_eq_true _ _ ▸ hm).2
  | ends habsorbed =>
      exact ⟨_, rfl, isGap_of_readGap, (skips_ends habsorbed).mono fun hm => by cases hm⟩
  | seq _ _ ih₁ ih₂ =>
      obtain ⟨hfirst, hsecond⟩ := Bool.and_eq_true _ _ ▸ hr
      obtain ⟨tail₁, rfl, h₁, hskips₁⟩ := ih₁ hfirst
      obtain ⟨tail₂, rfl, h₂, hskips₂⟩ := ih₂ hsecond
      refine ⟨tail₂ ++ tail₁, (List.append_assoc ..).symm, fun p hp => ?_, ?_⟩
      · exact (List.mem_append.1 hp).elim (h₂ p) (h₁ p)
      · rw [nodes_reverse_append]
        exact hskips₁.trans hskips₂
  | left _ ih => exact ih (Bool.and_eq_true _ _ ▸ hr).1
  | right _ ih => exact ih (Bool.and_eq_true _ _ ▸ hr).2
  | _ => cases hr

/-! ## §2. Rules that take a character. -/

theorem pos_of_longest? {σ : Type} {m : Scanner σ} {s : List Char} {n : Nat}
    (hstart : m.accepts m.start = false) (h : m.longest? s = some n) : 0 < n := by
  obtain ⟨-, state, hrun, hacc⟩ := Scanner.run_of_longest? h
  cases n with
  | zero =>
      obtain rfl : m.start = state := Option.some.inj hrun
      rw [hstart] at hacc
      cases hacc
  | succ n => exact Nat.succ_pos n

/-- A keyword is as long as its word. -/
theorem eq_of_keyword_size? {w s : List Char} {n : Nat}
    (h : (Lexeme.keyword w).size? s = some n) :
    s.take n = w := by
  simp only [Lexeme.size?] at h
  split at h
  · next hfront =>
      split at h
      · split at h
        · next hlength =>
            cases h
            rw [eq_of_beq hlength]
            exact (List.prefix_iff_eq_take.1 (List.isPrefixOf_iff_prefix.1 hfront)).symm
        · cases h
      · cases h
  · cases h

theorem pos_of_solidLexeme {lexeme : Lexeme} {s : List Char} {n : Nat}
    (hsolid : Rule.solidLexeme lexeme = true) (hsize : lexeme.size? s = some n) : 0 < n := by
  -- a keyword or a sign is as long as its text, and a scanner does not accept at its start
  cases lexeme with
  | keyword w =>
      obtain rfl := eq_of_keyword_size? hsize
      cases n with
      | zero => cases hsolid
      | succ n => exact Nat.succ_pos n
  | sign cs butNot =>
      simp only [Lexeme.size?] at hsize
      split at hsize
      · cases hsize
        cases cs with
        | nil => cases hsolid
        | cons => exact Nat.succ_pos _
      · cases hsize
  | name besides =>
      cases n with
      | zero => exact absurd rfl (isWord_of_name hsize).ne_nil
      | succ n => exact Nat.succ_pos n
  | privateName => exact pos_of_longest? rfl hsize
  | number => exact pos_of_longest? rfl hsize
  | regex => exact pos_of_longest? rfl hsize
  | string =>
      obtain ⟨c, hc, -⟩ := head?_of_string hsize
      cases n with
      | zero => simp at hc
      | succ n => exact Nat.succ_pos n
  | hashbang =>
      have hleaf : leafChecks "hash_bang_line" .hashbang = true := by decide
      have hstarts : StartsAs "hash_bang_line" (s.take n) := startsAs_of_leafChecks hleaf hsize
      obtain ⟨c, hc, -⟩ := hstarts (by decide)
      cases n with
      | zero => simp at hc
      | succ n => exact Nat.succ_pos n
  | _ => cases hsolid

/-- At the end of a text stands no such token. -/
theorem size?_nil {lexeme : Lexeme} (hsolid : Rule.solidLexeme lexeme = true) :
    lexeme.size? [] = none := by
  cases lexeme with
  | keyword w =>
      cases w with
      | nil => cases hsolid
      | cons => rfl
  | sign cs butNot =>
      cases cs with
      | nil => cases hsolid
      | cons => rfl
  | name | privateName | number | regex | string | hashbang => rfl
  | _ => cases hsolid

theorem length_pos_of_size? {lexeme : Lexeme} {s : List Char} {n : Nat}
    (hsolid : Rule.solidLexeme lexeme = true) (hsize : lexeme.size? s = some n) :
    0 < s.length := by
  cases s with
  | nil =>
      rw [size?_nil hsolid] at hsize
      cases hsize
  | cons => exact Nat.succ_pos _

/-- **A solid rule takes a character at least.** -/
theorem Reads.solid (hrules : ∀ name, (rules name).solid = true)
    (h : Reads rules r c row s row' s') (hr : r.solid = true) : s'.length < s.length := by
  induction h with
  | @leaf c row s kind lexeme n hsize =>
      have hpos := pos_of_solidLexeme hr hsize
      have hne := length_pos_of_size? hr hsize
      rw [List.length_drop]
      omega
  -- one of the two takes a character, and the other puts none back
  | @seq first second c row s row₁ s₁ row₂ s₂ hfirst hsecond ih₁ ih₂ =>
      obtain ⟨t₁, hs₁, -⟩ := hfirst.consumes
      obtain ⟨t₂, hs₂, -⟩ := hsecond.consumes
      have hlen₁ : s.length = t₁.length + s₁.length := by rw [hs₁, List.length_append]
      have hlen₂ : s₁.length = t₂.length + s₂.length := by rw [hs₂, List.length_append]
      rcases Bool.or_eq_true _ _ ▸ hr with hr | hr
      · have := ih₁ hr
        omega
      · have := ih₂ hr
        omega
  | left _ ih => exact ih (Bool.and_eq_true _ _ ▸ hr).1
  | right _ ih => exact ih (Bool.and_eq_true _ _ ▸ hr).2
  | @scope r c row s inner s' _ ih =>
      have hgap : s.length = (rowText (readGap false s [] s).1).length
          + (readGap false s [] s).2.length := by
        rw [← List.length_append, ← rowText_readGap]
      have := ih hr
      omega
  | wrap _ ih => exact ih hr
  | call _ ih => exact ih (hrules _)
  | within _ ih => exact ih hr
  | _ => cases hr

/-! ## §3. Rules that read one node. -/

/-- **A rule that reads one node puts it before the row, and a gap before it.**
Behind the text of the node that gap is skipped. -/
theorem Reads.one {calls : ν → Bool} {good : String → Bool}
    (hsolid : ∀ name, (rules name).solid = true)
    (hcalls : ∀ name, calls name = true → (rules name).one calls good = true)
    (h : Reads rules r c row s row' s') (hr : r.one calls good = true)
    (hs : AtToken c.dialect s) :
    ∃ tail n rest, row' = tail ++ .node n :: row ∧ (∀ p ∈ tail, p.IsGap) ∧ good n.kind = true
      ∧ n.spelling.toList ≠ [] ∧ s = n.spelling.toList ++ rest
      ∧ Skips (!c.dialect.hasTypes) rest (Part.nodes tail.reverse) s' := by
  have hnil : ∀ p ∈ ([] : List Part), p.IsGap := fun _ h => absurd h List.not_mem_nil
  induction h with
  | @leaf c row s kind lexeme n hsize =>
      obtain ⟨hkind, hlexeme⟩ := Bool.and_eq_true _ _ ▸ hr
      refine ⟨[], _, s.drop n, rfl, hnil, by rwa [kind_leaf], ?_, ?_, .refl⟩
      · have hpos := pos_of_solidLexeme hlexeme hsize
        have hne := length_pos_of_size? hlexeme hsize
        rw [Node.spelling_leaf, String.toList_ofList]
        intro htake
        have hlength := congrArg List.length htake
        rw [List.length_take, List.length_nil] at hlength
        omega
      · rw [Node.spelling_leaf, String.toList_ofList, List.take_append_drop]
  -- the node is read by the second rule, or by the first with a gap behind it
  | seq hfirst hsecond ih₁ ih₂ =>
      simp only [Rule.one, Bool.or_eq_true, Bool.and_eq_true] at hr
      rcases hr with ⟨hsilent, hone⟩ | ⟨hone, hgap⟩
      · obtain ⟨rfl, rfl⟩ := hfirst.silent hsilent hs
        exact ih₂ hone hs
      · obtain ⟨tail₁, n, rest, rfl, h₁, hkind, hne, htext, hskips₁⟩ := ih₁ hone hs
        obtain ⟨tail₂, rfl, h₂, hskips₂⟩ := hsecond.gapOnly hgap
        refine ⟨tail₂ ++ tail₁, n, rest, (List.append_assoc ..).symm, fun p hp => ?_, hkind, hne,
          htext, ?_⟩
        · exact (List.mem_append.1 hp).elim (h₂ p) (h₁ p)
        · rw [nodes_reverse_append]
          exact hskips₁.trans hskips₂
  | left _ ih => exact ih (Bool.and_eq_true _ _ ▸ hr).1 hs
  | right _ ih => exact ih (Bool.and_eq_true _ _ ▸ hr).2 hs
  | @scope r c row s inner s' h ih =>
      cases r with
      | wrap kind r =>
          cases h with
          | wrap h =>
              obtain ⟨hkind, hr⟩ := Bool.and_eq_true _ _ ▸ hr
              have hgap : readGap false s [] s = ([], s) := hs.noGap
              obtain ⟨t, hs', ht⟩ := h.consumes
              -- the rule inside took a character, and the node holds all that it took
              have hlt := h.solid hsolid hr
              rw [rowText_nil, List.nil_append] at ht
              rw [hgap] at hs' hlt
              refine ⟨[], _, s', by rw [hgap]; rfl, hnil, by rw [kind_build]; exact hkind, ?_, ?_,
                .refl⟩
              · rw [Node.spelling_build]
                show rowText _ ≠ []
                rw [ht]
                rintro rfl
                rw [hs'] at hlt
                exact absurd hlt (Nat.lt_irrefl _)
              · rw [Node.spelling_build]
                show s = rowText _ ++ s'
                rw [ht]
                exact hs'
      | _ => cases hr
  | call _ ih => exact ih (hcalls _ hr) hs
  | _ => cases hr

/-! ## §4. The rules of a statement. -/

theorem reads_of_oneOf {rs : List (Rule ν)} (hrs : rs ≠ [])
    (h : Reads rules (.oneOf rs) c row s row' s') : ∃ r ∈ rs, Reads rules r c row s row' s' := by
  induction rs with
  | nil => exact absurd rfl hrs
  | cons r rest ih =>
      cases rest with
      | nil => exact ⟨r, List.mem_cons_self, h⟩
      | cons r' rest =>
          cases h with
          | left h => exact ⟨r, List.mem_cons_self, h⟩
          | right h =>
              obtain ⟨q, hq, hread⟩ := ih (List.cons_ne_nil _ _) h
              exact ⟨q, List.mem_cons_of_mem _ hq, hread⟩

/-- Of the rules of statements only that of imports reads a node of its kind. -/
theorem one_of_mem_statementRules {r : ModuleRule} (hr : r ∈ statementRules) :
    r = importStatement ∨ r.one (· = .block) (· ≠ "import_statement") = true := by
  have hsplit : statementRules
      = statementRules.take 3 ++ importStatement :: statementRules.drop 4 := rfl
  -- every other rule passes a check that looks at the rules alone
  have hothers : (statementRules.take 3 ++ statementRules.drop 4).all
      (Rule.one (· = .block) (· ≠ "import_statement")) = true := by decide +kernel
  rw [hsplit, List.mem_append, List.mem_cons] at hr
  rcases hr with hr | rfl | hr
  · exact .inr (List.all_eq_true.1 hothers r (List.mem_append_left _ hr))
  · exact .inl rfl
  · exact .inr (List.all_eq_true.1 hothers r (List.mem_append_right _ hr))

theorem block_one (good : String → Bool) (hgood : good "statement_block" = true) (name : Symbol)
    (hname : decide (name = .block) = true) : (rule name).one (· = .block) good = true := by
  obtain rfl : name = .block := of_decide_eq_true hname
  show (good "statement_block" && _) = true
  rw [hgood]
  decide +kernel

theorem rule_solid (name : Symbol) : (rule name).solid = true := by
  cases name <;> decide +kernel

/-- What the rules of statements read is one node, and perhaps a gap behind it. -/
theorem one_of_reads_statementRules
    (h : Reads rule (.oneOf statementRules) c row s row' s') (hs : AtToken c.dialect s) :
    ∃ tail n rest, row' = tail ++ .node n :: row ∧ (∀ p ∈ tail, p.IsGap)
      ∧ n.spelling.toList ≠ [] ∧ s = n.spelling.toList ++ rest
      ∧ Skips (!c.dialect.hasTypes) rest (Part.nodes tail.reverse) s' := by
  obtain ⟨r, hr, hread⟩ := reads_of_oneOf (List.cons_ne_nil _ _) h
  have hall : statementRules.all (Rule.one (· = .block) fun _ => true) = true := by
    decide +kernel
  obtain ⟨tail, n, rest, hrow, hgap, -, hmore⟩ := hread.one rule_solid (block_one _ rfl)
    (List.all_eq_true.1 hall r hr) hs
  exact ⟨tail, n, rest, hrow, hgap, hmore⟩

/-- A statement is what its rules read behind the gap. -/
theorem read_statement (depth : Nat) (c : Context) (row : List Part) (s : List Char) :
    read rule (depth + 1) .statement c row s
      = step (read rule depth) (.oneOf statementRules) c.fresh
          (readGap (!c.dialect.hasTypes) s row s).1 (readGap (!c.dialect.hasTypes) s row s).2 := by
  rw [read, rule, statement]
  simp only [step, Bool.true_and]

end ImportSplit.Grammar
