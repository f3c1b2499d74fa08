/-
  ImportSplit.Proofs.Tokens
  ────────────────────────────────
  **READING ONE TOKEN AFTER ANOTHER.**

  A text is followed through the rules of a grammar in two directions, with one
  lemma for each form of a rule:

      step_…     forward: the rule reads this text, or is refused (§2)
      reads_…    back: the rule was read, so this text stood there (§3)

  Forward, every rule that is tried first has to be refused; back, it is enough
  to look at what a derivation could have gone through.
-/
import ImportSplit.Proofs.Segments

namespace ImportSplit

namespace Grammar

/-! ## §1. What stands at a place. -/

/-- A character that no comment starts with is the start of a token. -/
theorem atToken_of_head? {d : Dialect} {s : List Char} {c : Char} (hc : s.head? = some c)
    (hgap : Text.isGap c = false) (hsign : c ∉ ['/', '<', '-']) : AtToken d s := by
  refine ⟨fun e he => ?_, ?_⟩
  · obtain rfl : c = e := Option.some.inj (hc.symm.trans he)
    exact hgap
  · cases hcomment : commentHere? (!d.hasTypes) s with
    | none => rfl
    | some x =>
        obtain ⟨kind, n⟩ := x
        exfalso
        -- both kinds of comment start with one of the three signs
        have hpos := length_pos_of_commentHere? hcomment
        have hstarts := startsAs_of_commentHere? hcomment
        unfold StartsAs at hstarts
        rw [head?_take_succ hpos, hc] at hstarts
        rcases kind_of_commentHere? hcomment with rfl | rfl
        · obtain ⟨e, he, hmem⟩ := hstarts (by decide)
          obtain rfl : c = e := Option.some.inj he
          rw [show startingChars "comment" = ['/'] from rfl, List.mem_singleton] at hmem
          exact hsign (by simp [hmem])
        · obtain ⟨e, he, hmem⟩ := hstarts (by decide)
          obtain rfl : c = e := Option.some.inj he
          exact hsign (List.mem_cons_of_mem _ hmem)

/-- A word starts with a letter, or with the backslash of an escape. -/
theorem IsWord.head? {t : List Char} (h : IsWord t) :
    ∃ c, t.head? = some c ∧ (isWordChar c = true ∨ c = '\\') := by
  cases t with
  | nil => exact absurd rfl h.ne_nil
  | cons c t =>
      refine ⟨c, rfl, ?_⟩
      have hrun : word.run .start (c :: t) = some .inside := h
      unfold Scanner.run at hrun
      by_cases hback : c = '\\'
      · exact .inr hback
      -- the scanner has no other way out of its start
      · refine .inl (Bool.not_eq_false _ ▸ fun hchar => ?_)
        have hmove : word.move .start c = none := by
          show (if (c == '\\') = true then some WordState.backslash
            else if (isWordChar c && !isDigit c) = true then some .inside else none) = none
          simp [hback, hchar]
        rw [hmove] at hrun
        cases hrun

/-- No character of words is blank. -/
theorem isGap_of_isWordChar {c : Char} (h : isWordChar c = true) : Text.isGap c = false := by
  unfold isWordChar at h
  by_cases hsmall : c.toNat < 128
  · refine Bool.eq_false_iff.2 fun hgap => ?_
    -- the blanks of ASCII are the space and the codes from 9 to 13
    have hcode : c.toNat = 32 ∨ 9 ≤ c.toNat ∧ c.toNat ≤ 13 := by
      simp only [Text.isGap, Text.isWhite, Bool.or_eq_true, Bool.and_eq_true, beq_iff_eq,
        decide_eq_true_eq] at hgap
      rcases hgap with ((hgap | rfl) | rfl) | rfl
      · omega
      all_goals exact absurd hsmall (by decide)
    have hne : ∀ n, isWordChar (Char.ofNat n) = false → c.toNat ≠ n := by
      rintro n hn rfl
      rw [Char.ofNat_toNat] at hn
      unfold isWordChar at hn
      rw [hn] at h
      cases h
    have := hne 32 (by decide)
    have := hne 9 (by decide)
    have := hne 10 (by decide)
    have := hne 11 (by decide)
    have := hne 12 (by decide)
    have := hne 13 (by decide)
    omega
  · rw [if_neg hsmall] at h
    simpa using h

theorem IsWord.atToken {d : Dialect} {t : List Char} (h : IsWord t) (rest : List Char) :
    AtToken d (t ++ rest) := by
  obtain ⟨c, hc, hchar⟩ := h.head?
  have hhead : (t ++ rest).head? = some c := by
    rw [List.head?_append, hc]
    rfl
  rcases hchar with hchar | rfl
  · refine atToken_of_head? hhead (isGap_of_isWordChar hchar) fun hsign => ?_
    simp only [List.mem_cons, List.not_mem_nil, or_false] at hsign
    rcases hsign with rfl | rfl | rfl <;> cases hchar
  · exact atToken_of_head? hhead (by decide) (by decide)

/-- A gap of one space. -/
theorem AtToken.readGap_space {d : Dialect} {s : List Char} (h : AtToken d s) :
    Grammar.readGap false (' ' :: s) [] (' ' :: s) = ([.text " "], s) := by
  have hblanks : ((' ' :: s).takeWhile Text.isGap).length = 1 := by
    have hspace : Text.isGap ' ' = true := by decide
    rw [List.takeWhile_cons, if_pos hspace, List.length_cons]
    cases s with
    | nil => rfl
    | cons c s =>
        have hc : Text.isGap c = false := h.1 c rfl
        simp [hc]
  have hcomment : commentHere? false s = none :=
    commentHere?_eq_none_of_le (fun h => by cases h) h.2
  unfold Grammar.readGap
  simp only [hblanks, List.drop_one, List.tail_cons, hcomment]
  rfl

theorem endsWord_space (rest : List Char) : EndsWord (' ' :: rest) := by
  intro e he
  obtain rfl : ' ' = e := Option.some.inj he
  decide

/-! ## §2. Forward. -/

section
variable {ν : Type} {next : ν → Context → List Part → List Char → Outcome} {kind : String}
  {lexeme : Lexeme} {c : Context} {row g : List Part} {s t rest : List Char}

/-- A token is read behind the gap. -/
theorem step_token (hgap : readGap false s [] s = (g, t ++ rest))
    (hsize : lexeme.size? (t ++ rest) = some t.length) :
    step next (Rule.token kind lexeme) c row s
      = .done (.node (.leaf kind (String.ofList t)) :: (g ++ row)) rest := by
  unfold Rule.token
  simp only [step, Bool.false_and]
  rw [readGap_frame, hgap]
  simp only [hsize, List.take_left, List.drop_left]

/-- A token that does not stand behind the gap is refused. -/
theorem step_token_refused (hgap : readGap false s [] s = (g, t))
    (hsize : lexeme.size? t = none) : step next (Rule.token kind lexeme) c row s = .refused := by
  unfold Rule.token
  simp only [step, Bool.false_and]
  rw [readGap_frame, hgap]
  simp only [hsize]

variable {r r' : Rule ν} {rs : List (Rule ν)} {row' : List Part} {s' : List Char}

/-- A row goes on behind its first rule. -/
theorem step_row (h : step next r c row s = .done row' s') :
    step next (Rule.row (r :: r' :: rs)) c row s = step next (Rule.row (r' :: rs)) c row' s' := by
  show step next (.seq r (Rule.row (r' :: rs))) c row s = _
  rw [step, h]

theorem step_row_refused (h : step next r c row s = .refused) :
    step next (Rule.row (r :: rs)) c row s = .refused := by
  cases rs with
  | nil => exact h
  | cons r' rs =>
      show step next (.seq r (Rule.row (r' :: rs))) c row s = .refused
      rw [step, h]

/-- Of several rules the first one that is not refused counts. -/
theorem step_oneOf_refused (h : step next r c row s = .refused) :
    step next (Rule.oneOf (r :: r' :: rs)) c row s = step next (Rule.oneOf (r' :: rs)) c row s := by
  show step next (.either r (Rule.oneOf (r' :: rs))) c row s = _
  rw [step, h]

theorem step_oneOf (h : step next r c row s = .done row' s') :
    step next (Rule.oneOf (r :: rs)) c row s = .done row' s' := by
  cases rs with
  | nil => exact h
  | cons r' rs =>
      show step next (.either r (Rule.oneOf (r' :: rs))) c row s = _
      rw [step, h]

theorem step_opt_refused (h : step next r c row s = .refused) :
    step next (Rule.opt r) c row s = .done row s := by
  unfold Rule.opt
  rw [step, h]
  rfl

theorem step_typed_refused (h : step next r c row s = .refused) :
    step next (Rule.typed r) c row s = .refused := by
  simp only [Rule.typed, step]
  by_cases htypes : c.dialect.hasTypes = true
  · simp only [htypes, if_true, h]
  · rw [if_neg htypes]

theorem step_many_refused (h : step next r c row s = .refused) :
    step next (.many r) c row s = .done row s := by
  rw [step]
  cases s with
  | nil => rfl
  | cons e s =>
      unfold repeatStep
      rw [h]

/-- A node is read behind the gap. -/
theorem step_node {inner : List Part} (hgap : readGap false s [] s = (g, t))
    (hinner : step next r c [] t = .done inner rest) :
    step next (Rule.node kind r) c row s
      = .done (.node (Node.build kind inner.reverse) :: (g ++ row)) rest := by
  unfold Rule.node
  simp only [step]
  rw [readGap_frame, hgap]
  simp only [hinner, List.cons_append, List.nil_append]

/-- A node whose rule is refused is refused. -/
theorem step_node_refused (hgap : readGap false s [] s = (g, t))
    (hinner : step next r c [] t = .refused) :
    step next (Rule.node kind r) c row s = .refused := by
  unfold Rule.node
  simp only [step]
  rw [readGap_frame, hgap]
  simp only [hinner]

/-- A sign is not found where another character stands. -/
theorem sign_size?_eq_none {k e : Char} {cs : List Char} {butNot : List (List Char)}
    (hs : s.head? = some e) (hne : k ≠ e) : (Lexeme.sign (k :: cs) butNot).size? s = none := by
  cases s with
  | nil => cases hs
  | cons e' s =>
      obtain rfl : e' = e := Option.some.inj hs
      simp [Lexeme.size?, hne]

/-- A string is not found where no quote stands. -/
theorem string_size?_eq_none {e : Char} (hs : s.head? = some e) (hne : e ∉ startingChars "string") :
    Lexeme.string.size? s = none := by
  cases hsize : Lexeme.string.size? s with
  | none => rfl
  | some n =>
      obtain ⟨k, hk, hmem⟩ := head?_of_string hsize
      have hpos : 0 < n := pos_of_solidLexeme rfl hsize
      rw [head?_take_succ hpos, hs] at hk
      exact absurd (Option.some.inj hk ▸ hmem) hne

end

/-! ## §3. Back. -/

section
variable {ν : Type} {rules : ν → Rule ν} {r r' : Rule ν} {rs : List (Rule ν)} {kind : String}
  {lexeme : Lexeme} {c : Context} {row row' g : List Part} {s s' t : List Char}

/-- A token was read behind the gap. -/
theorem reads_token (h : Reads rules (Rule.token kind lexeme) c row s row' s')
    (hgap : readGap false s [] s = (g, t)) :
    ∃ n, lexeme.size? t = some n ∧ row' = .node (.leaf kind (String.ofList (t.take n))) :: (g ++ row)
      ∧ s' = t.drop n := by
  cases h with
  | seq hfirst hsecond =>
      cases hfirst with
      | gap =>
          cases hsecond with
          | @leaf _ _ _ _ _ n hsize =>
              rw [Bool.false_and, hgap] at hsize ⊢
              exact ⟨n, hsize, rfl, rfl⟩

/-- A keyword was read as the whole word that stands there. -/
theorem reads_keyword {w : String} {rest : List Char}
    (h : Reads rules (Rule.keyword w) c row s row' s') (hgap : readGap false s [] s = (g, t ++ rest))
    (ht : IsWord t) (hrest : EndsWord rest) :
    t = w.toList ∧ row' = .node (.leaf w w) :: (g ++ row) ∧ s' = rest := by
  obtain ⟨n, hsize, rfl, rfl⟩ := reads_token h hgap
  rw [keyword_size? ht hrest] at hsize
  by_cases hw : t = w.toList
  · rw [if_pos hw] at hsize
    obtain rfl := Option.some.inj hsize
    rw [List.take_left, List.drop_left, hw, String.ofList_toList]
    exact ⟨rfl, rfl, rfl⟩
  · rw [if_neg hw] at hsize
    cases hsize

/-- A row was read rule after rule. -/
theorem reads_row (h : Reads rules (Rule.row (r :: r' :: rs)) c row s row' s') :
    ∃ row₁ s₁, Reads rules r c row s row₁ s₁ ∧ Reads rules (Rule.row (r' :: rs)) c row₁ s₁ row' s' := by
  cases h with
  | seq hfirst hsecond => exact ⟨_, _, hfirst, hsecond⟩

/-- A node was read behind the gap. -/
theorem reads_node (h : Reads rules (Rule.node kind r) c row s row' s')
    (hgap : readGap false s [] s = (g, t)) :
    ∃ inner, Reads rules r c [] t inner s' ∧ row' = .node (Node.build kind inner.reverse) :: (g ++ row) := by
  cases h with
  | scope h =>
      cases h with
      | @wrap _ _ _ _ _ inner _ h =>
          rw [hgap] at h ⊢
          exact ⟨inner, h, rfl⟩

end

/-! ## §4. The front of a text. -/

/-- What starts with a character of a word was read as a statement. -/
theorem ReadAt.step_of_head? {d : Dialect} {s rest : List Char} {n : Node} {e : Char}
    (h : ReadAt d s n) (hs : s = n.spelling.toList ++ rest) (hhead : s.head? = some e)
    (he : isWordChar e = true) :
    ∃ depth row tail s', AtToken d s
      ∧ step (read rule (depth + 1)) (.oneOf statementRules) { dialect := d } row s
        = .done (tail ++ .node n :: row) s' := by
  -- a comment starts with its sign, which is in no word
  cases h with
  | @remark kind text hkind hstarts =>
      obtain ⟨k, hk, hmem⟩ := hstarts hkind
      rw [hs, Node.spelling, List.head?_append, Option.mem_def.1 hk] at hhead
      obtain rfl : k = e := Option.some.inj hhead
      rw [(of_mem_startingChars hmem).2] at he
      cases he
  | statement hat hstep htail => exact ⟨_, _, _, _, hat, hstep⟩

/-- The last node before a row is determined by the whole row. -/
theorem eq_of_append_node (tail tail' : List Part) {row : List Part} {n m : Node}
    (h : tail ++ .node n :: row = tail' ++ .node m :: row) : n = m := by
  have hrow : (tail ++ [.node n]) ++ row = (tail' ++ [.node m]) ++ row := by
    rw [List.append_assoc, List.append_assoc]
    exact h
  have hend := congrArg List.getLast? (List.append_cancel_right hrow)
  rw [List.getLast?_concat, List.getLast?_concat] at hend
  exact Part.node.inj (Option.some.inj hend)

/-- What is read at a place is a comment or the line `#!…`, or one of the rules of
statements read it there. -/
theorem ReadAt.reads_rule {d : Dialect} {s : List Char} {n : Node} (h : ReadAt d s n) :
    (∃ kind text, n = .token kind text)
      ∨ AtToken d s ∧ ∃ r ∈ statementRules, ∃ row tail s',
        Reads rule r { dialect := d } row s (tail ++ .node n :: row) s' := by
  cases h with
  | remark => exact .inl ⟨_, _, rfl⟩
  | @statement n depth row tail s' hat hstep htail =>
      have hreads := reads_of_step (fun name => reads_of_read rule (depth + 1) name)
        _ _ _ _ _ _ hstep
      obtain ⟨r, hr, hread⟩ := reads_of_oneOf (List.cons_ne_nil _ _) hreads
      exact .inr ⟨hat, r, hr, row, tail, s', hread⟩

section
variable {d : Dialect} {s s' : List Char} {row tail : List Part} {n : Node}

/-- A rule of one node built the node that it put before the row. -/
theorem build_of_reads_node {kind : String} {r : ModuleRule} (hat : AtToken d s)
    (h : Reads rule (Rule.node kind r) { dialect := d } row s (tail ++ .node n :: row) s') :
    ∃ inner, Reads rule r { dialect := d } [] s inner s' ∧ n = Node.build kind inner.reverse := by
  obtain ⟨inner, hinner, hrow⟩ := reads_node h hat.noGap
  exact ⟨inner, hinner, eq_of_append_node tail [] hrow⟩

/-- A rule that reads one node puts one of its kinds before the row. -/
theorem kind_of_reads_one {good : String → Bool} (hgood : good "statement_block" = true)
    {r : ModuleRule} (hone : r.one (· = .block) good = true) (hat : AtToken d s)
    (h : Reads rule r { dialect := d } row s (tail ++ .node n :: row) s') :
    good n.kind = true := by
  obtain ⟨tail', m, -, hrow, -, hkind, -⟩ :=
    h.one rule_solid (block_one good hgood) hone hat
  rwa [eq_of_append_node tail tail' hrow]

end

namespace Segments

variable {d : Dialect} {s : List Char} {n : Node} {ns : List Node}

/-- Behind a character of a word no blanks stand before the first node. -/
theorem of_head? {e : Char} (h : Segments d s ns) (hhead : s.head? = some e)
    (he : isWordChar e = true) :
    ∃ n ns' rest, ns = n :: ns' ∧ s = n.spelling.toList ++ rest ∧ ReadAt d s n
      ∧ Segments d rest ns' := by
  have hgap : Text.isGap e = false := isGap_of_isWordChar he
  cases h with
  | done hblank =>
      rw [hblank e (List.mem_of_head? hhead)] at hgap
      cases hgap
  | @next blanks rest n ns hblank hne hread hrest =>
      cases blanks with
      | nil => exact ⟨n, ns, rest, rfl, rfl, hread, hrest⟩
      | cons b blanks =>
          obtain rfl : b = e := Option.some.inj hhead
          rw [hblank b List.mem_cons_self] at hgap
          cases hgap

end Segments

end Grammar

end ImportSplit
